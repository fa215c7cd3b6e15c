import Bfc.Lib.Shares
import Bfc.Lib.Tables
import Mathlib.Logic.Function.Basic

/-!
# Sockets and their descriptors

The constructors, assignment and destructor of `socket`, and `accept`, over the descriptor table of
the process. The kernel may give out any number that is free, so a number that was closed comes
back; the descriptors themselves are numbered apart, in the order they are opened. The rest of the
program opens and closes descriptors too, but none that a socket has.

Each call of `close` is on record, with the descriptor that had the number at that time. The result
is that sockets close what they were given, all of it, and nothing else.
-/

namespace Bfc.Sockets

/-- `socket`. -/
structure Socket where
  fd : Int := -1

/-- A call of `close` by a socket; without a descriptor it has failed with `EBADF`. -/
structure Closed where
  fd : Int
  descriptor : Option Nat

/-- The descriptor table, how many descriptors were opened, and the objects, of which a destroyed
one leaves an empty slot; for the record, the calls of `close` and the descriptors that sockets were
given. -/
structure World where
  table : Int → Option Nat := fun _ => none
  opened : Nat := 0
  sockets : List (Option Socket) := []
  closes : List Closed := []
  given : List Nat := []

namespace World

/-- The kernel opens a descriptor under a number. -/
def openFd (w : World) (fd : Int) : World :=
  { w with table := Function.update w.table fd (some w.opened), opened := w.opened + 1 }

/-- `close`, in a socket. -/
def closeFd (w : World) (fd : Int) : World :=
  { w with
    table := Function.update w.table fd none
    closes := w.closes ++ [{ fd := fd, descriptor := w.table fd }] }

/-- `m_fd` of an object. -/
def fd (w : World) (i : Nat) : Int :=
  match w.sockets[i]? with
  | some (some s) => s.fd
  | _ => -1

/-- `m_fd` is assigned. -/
def setFd (w : World) (i : Nat) (fd : Int) : World :=
  { w with sockets := w.sockets.set i (some { fd := fd }) }

/-- `socket()`. -/
def constructEmpty (w : World) : World := { w with sockets := w.sockets ++ [some { fd := -1 }] }

/-- `socket(p_fd)`, for a descriptor that the socket is given, or -1. -/
def construct (w : World) (fd : Int) : World :=
  { w with
    sockets := w.sockets ++ [some { fd := fd }]
    given := w.given ++ (w.table fd).toList }

/-- `socket(::accept(..))`, and `socket` of what `create_tcp4` and its like return. -/
def create (w : World) : Option Int → World
  | some fd => (w.openFd fd).construct fd
  | none => w.construct (-1)

/-- The move constructor. -/
def moveConstruct (w : World) (other : Nat) : World :=
  if w.fd other ≠ -1 then
    { w.setFd other (-1) with
      sockets := (w.setFd other (-1)).sockets ++ [some { fd := w.fd other }] }
  else w.constructEmpty

/-- The move assignment. -/
def moveAssign (w : World) (this other : Nat) : World :=
  if w.fd other ≠ -1 then
    let w := if w.fd this ≠ -1 then w.closeFd (w.fd this) else w
    let w := w.setFd this (w.fd other)
    w.setFd other (-1)
  else w

/-- The destructor. -/
def destroy (w : World) (this : Nat) : World :=
  let w := if w.fd this ≠ -1 then w.closeFd (w.fd this) else w
  { w with sockets := w.sockets.set this none }

end World

/-- A call. `create` and `accept` come with the number that the kernel returns, and `openOther` and
`closeOther` are the rest of the program. -/
inductive Op where
  | construct
  | create (fd : Option Int)
  | adopt (fd : Int)
  | accept (this : Nat) (fd : Option Int)
  | moveConstruct (other : Nat)
  | moveAssign (this other : Nat)
  | destroy (this : Nat)
  | openOther (fd : Int)
  | closeOther (fd : Int)

/-- The number that a slot has. -/
def fdOf : Option Socket → List Int
  | some s => if s.fd = -1 then [] else [s.fd]
  | none => []

namespace World

/-- The numbers that the live sockets have. -/
def owned (w : World) : List Int := Shares.whole fdOf w.sockets

/-- An object exists. -/
def live (w : World) (i : Nat) : Bool :=
  match w.sockets[i]? with
  | some (some _) => true
  | _ => false

/-- A number that the kernel can give out. -/
def available (w : World) (fd : Int) : Bool := decide (0 ≤ fd) && (w.table fd).isNone

/-- The objects of a call exist, the kernel gives out free numbers, and the program hands over and
closes open descriptors that no socket has. -/
def valid (w : World) : Op → Bool
  | .construct => true
  | .create fd => fd.all w.available
  | .adopt fd => (w.table fd).isSome && !w.owned.contains fd
  | .accept this fd =>
    w.live this && fd.all fun fd => w.available fd && (w.table (w.fd this)).isSome
  | .moveConstruct other => w.live other
  | .moveAssign this other => w.live this && w.live other
  | .destroy this => w.live this
  | .openOther fd => w.available fd
  | .closeOther fd => (w.table fd).isSome && !w.owned.contains fd

/-- The effect of a call. -/
def perform (w : World) : Op → World
  | .construct => w.constructEmpty
  | .create fd => w.create fd
  | .adopt fd => w.construct fd
  | .accept _ fd => w.create fd
  | .moveConstruct other => w.moveConstruct other
  | .moveAssign this other => w.moveAssign this other
  | .destroy this => w.destroy this
  | .openOther fd => w.openFd fd
  | .closeOther fd => { w with table := Function.update w.table fd none }

def call (w : World) (op : Op) : World := if w.valid op then w.perform op else w

/-- The calls one after the other. -/
def run (w : World) (ops : List Op) : World := ops.foldl call w

end World

/-! ## The account -/

/-- The sockets have the numbers `fds`: they are open, and each descriptor that was given is there
or was closed, once. -/
structure Owned (fds : List Int) (w : World) : Prop where
  nodup : fds.Nodup
  isOpen : ∀ fd ∈ fds, ∃ d ∈ w.given, w.table fd = some d
  nonneg : ∀ fd d, w.table fd = some d → 0 ≤ fd
  fresh : ∀ fd d, w.table fd = some d → d < w.opened
  once : ∀ fd fd' d, w.table fd = some d → w.table fd' = some d → fd = fd'
  closes : ∀ c ∈ w.closes, ∃ d ∈ w.given, c.descriptor = some d ∧ ∀ fd, w.table fd ≠ some d
  closedOnce : (w.closes.map Closed.descriptor).Nodup
  given : ∀ d ∈ w.given, d < w.opened
  kept : ∀ d ∈ w.given,
    (∃ fd ∈ fds, w.table fd = some d) ∨ some d ∈ w.closes.map Closed.descriptor

namespace Owned

variable {fds fds' : List Int} {w : World} {fd : Int}

theorem perm (h : Owned fds w) (perm : fds.Perm fds') : Owned fds' w :=
  { h with
    nodup := perm.nodup h.nodup
    isOpen := fun fd mem => h.isOpen fd (perm.mem_iff.mpr mem)
    kept := fun d mem => (h.kept d mem).imp_left fun ⟨fd, there, names⟩ =>
      ⟨fd, perm.mem_iff.mp there, names⟩ }

/-- The objects themselves do not matter. -/
theorem sockets (h : Owned fds w) (sockets : List (Option Socket)) :
    Owned fds { w with sockets := sockets } := ⟨h.nodup, h.isOpen, h.nonneg, h.fresh, h.once,
  h.closes, h.closedOnce, h.given, h.kept⟩

/-- A number that is not open belongs to no socket. -/
theorem not_owned (h : Owned fds w) (free : w.table fd = none) : fd ∉ fds := by
  intro mem
  obtain ⟨d, -, there⟩ := h.isOpen fd mem
  rw [free] at there
  cases there

/-- A socket is given a descriptor. -/
theorem gain (h : Owned fds w) {d : Nat} (there : w.table fd = some d) (other : fd ∉ fds) :
    Owned (fd :: fds) { w with given := w.given ++ [d] } where
  nodup := List.nodup_cons.mpr ⟨other, h.nodup⟩
  isOpen fd' mem := by
    rcases List.mem_cons.mp mem with rfl | mem
    · exact ⟨d, List.mem_append_right _ (List.mem_singleton_self d), there⟩
    · obtain ⟨d', mem', names⟩ := h.isOpen fd' mem
      exact ⟨d', List.mem_append_left _ mem', names⟩
  nonneg := h.nonneg
  fresh := h.fresh
  once := h.once
  closes c hc := by
    obtain ⟨d', mem, rest⟩ := h.closes c hc
    exact ⟨d', List.mem_append_left _ mem, rest⟩
  closedOnce := h.closedOnce
  given d' mem := by
    rcases List.mem_append.mp mem with mem | mem
    · exact h.given d' mem
    · rw [List.mem_singleton.mp mem]
      exact h.fresh fd d there
  kept d' mem := by
    rcases List.mem_append.mp mem with mem | mem
    · exact (h.kept d' mem).imp_left fun ⟨fd', mem', names⟩ =>
        ⟨fd', List.mem_cons_of_mem _ mem', names⟩
    · rw [List.mem_singleton.mp mem]
      exact .inl ⟨fd, List.mem_cons_self, there⟩

/-- A number that no socket has comes to another descriptor, or to none. -/
theorem update (h : Owned fds w) {descriptor : Option Nat} {opened : Nat} (other : fd ∉ fds)
    (more : w.opened ≤ opened)
    (new : ∀ d, descriptor = some d → 0 ≤ fd ∧ w.opened ≤ d ∧ d < opened) :
    Owned fds { w with table := Function.update w.table fd descriptor, opened := opened } := by
  have namedBy : ∀ fd' d, Function.update w.table fd descriptor fd' = some d →
      fd' = fd ∧ descriptor = some d ∨ fd' ≠ fd ∧ w.table fd' = some d := by
    intro fd' d names
    by_cases same : fd' = fd
    · rw [same, Function.update_self] at names
      exact .inl ⟨same, names⟩
    · rw [Function.update_of_ne same] at names
      exact .inr ⟨same, names⟩
  have stays : ∀ fd' ∈ fds, Function.update w.table fd descriptor fd' = w.table fd' :=
    fun fd' mem => Function.update_of_ne (fun same : fd' = fd => other (same ▸ mem)) _ _
  have old : ∀ d ∈ w.given, descriptor ≠ some d := by
    intro d mem same
    exact absurd (h.given d mem) (Nat.not_lt.mpr (new d same).2.1)
  refine
    { nodup := h.nodup
      isOpen := fun fd' mem => ?_
      nonneg := fun fd' d names => ?_
      fresh := fun fd' d names => ?_
      once := fun fd' fd'' d names names' => ?_
      closes := fun c hc => ?_
      closedOnce := h.closedOnce
      given := fun d mem => Nat.lt_of_lt_of_le (h.given d mem) more
      kept := fun d mem => ?_ }
  · obtain ⟨d, mem', names⟩ := h.isOpen fd' mem
    exact ⟨d, mem', (stays fd' mem).trans names⟩
  · rcases namedBy fd' d names with ⟨rfl, same⟩ | ⟨-, names⟩
    · exact (new d same).1
    · exact h.nonneg fd' d names
  · rcases namedBy fd' d names with ⟨-, same⟩ | ⟨-, names⟩
    · exact (new d same).2.2
    · exact Nat.lt_of_lt_of_le (h.fresh fd' d names) more
  · rcases namedBy fd' d names with ⟨rfl, same⟩ | ⟨-, names⟩
    · rcases namedBy fd'' d names' with ⟨rfl, -⟩ | ⟨-, names'⟩
      · rfl
      · exact absurd (h.fresh fd'' d names') (Nat.not_lt.mpr (new d same).2.1)
    · rcases namedBy fd'' d names' with ⟨-, same⟩ | ⟨-, names'⟩
      · exact absurd (h.fresh fd' d names) (Nat.not_lt.mpr (new d same).2.1)
      · exact h.once fd' fd'' d names names'
  · obtain ⟨d, mem, same, gone⟩ := h.closes c hc
    refine ⟨d, mem, same, fun fd' names => ?_⟩
    rcases namedBy fd' d names with ⟨-, isNew⟩ | ⟨-, names⟩
    · exact old d mem isNew
    · exact gone fd' names
  · exact (h.kept d mem).imp_left fun ⟨fd', mem', names⟩ =>
      ⟨fd', mem', (stays fd' mem').trans names⟩

/-- A socket closes its descriptor. -/
theorem close (h : Owned (fd :: fds) w) : Owned fds (w.closeFd fd) := by
  obtain ⟨other, nodup⟩ := List.nodup_cons.mp h.nodup
  obtain ⟨d, given, there⟩ := h.isOpen fd List.mem_cons_self
  have remains : ∀ fd' d', (w.closeFd fd).table fd' = some d' →
      fd' ≠ fd ∧ w.table fd' = some d' := by
    intro fd' d' names
    have names : Function.update w.table fd none fd' = some d' := names
    by_cases same : fd' = fd
    · rw [same, Function.update_self] at names
      cases names
    · rw [Function.update_of_ne same] at names
      exact ⟨same, names⟩
  have stays : ∀ fd' ∈ fds, (w.closeFd fd).table fd' = w.table fd' :=
    fun fd' mem => Function.update_of_ne (fun same : fd' = fd => other (same ▸ mem)) _ _
  have closes : (w.closeFd fd).closes.map Closed.descriptor =
      w.closes.map Closed.descriptor ++ [some d] := by
    show (w.closes ++ [_]).map Closed.descriptor = _
    rw [List.map_append, List.map_singleton, there]
  refine
    { nodup := nodup
      isOpen := fun fd' mem => ?_
      nonneg := fun fd' d' names => h.nonneg fd' d' (remains fd' d' names).2
      fresh := fun fd' d' names => h.fresh fd' d' (remains fd' d' names).2
      once := fun fd' fd'' d' names names' =>
        h.once fd' fd'' d' (remains fd' d' names).2 (remains fd'' d' names').2
      closes := fun c hc => ?_
      closedOnce := ?_
      given := h.given
      kept := fun d' mem => ?_ }
  · obtain ⟨d', mem', names⟩ := h.isOpen fd' (List.mem_cons_of_mem _ mem)
    exact ⟨d', mem', (stays fd' mem).trans names⟩
  · rcases List.mem_append.mp hc with hc | hc
    · obtain ⟨d', mem, same, gone⟩ := h.closes c hc
      exact ⟨d', mem, same, fun fd' names => gone fd' (remains fd' d' names).2⟩
    · rw [List.mem_singleton.mp hc]
      refine ⟨d, given, there, fun fd' names => ?_⟩
      obtain ⟨different, names⟩ := remains fd' d names
      exact different (h.once fd' fd d names there)
  · rw [closes, List.nodup_append]
    refine ⟨h.closedOnce, List.pairwise_singleton _ _, fun a ha b hb => ?_⟩
    rintro rfl
    obtain ⟨c, hc, same⟩ := List.mem_map.mp ha
    obtain ⟨d', -, descriptor, gone⟩ := h.closes c hc
    rw [List.mem_singleton.mp hb] at same
    rw [same] at descriptor
    obtain rfl := Option.some.inj descriptor
    exact gone fd there
  · rw [closes, List.mem_append]
    rcases h.kept d' mem with ⟨fd', mem', names⟩ | closed
    · rcases List.mem_cons.mp mem' with rfl | mem'
      · rw [there] at names
        obtain rfl := Option.some.inj names
        exact .inr (.inr (List.mem_singleton_self _))
      · exact .inl ⟨fd', mem', (stays fd' mem').trans names⟩
    · exact .inr (.inl closed)

/-! ## The calls -/

theorem start : Owned ({} : World).owned {} where
  nodup := List.nodup_nil
  isOpen fd mem := by cases mem
  nonneg fd d names := by cases names
  fresh fd d names := by cases names
  once fd fd' d names := by cases names
  closes c hc := by cases hc
  closedOnce := List.nodup_nil
  given d mem := by cases mem
  kept d mem := by cases mem

end Owned

section Objects

variable {w : World}

/-- What a live object has. -/
theorem live_iff {i : Nat} :
    w.live i = true ↔ w.sockets[i]? = some (some { fd := w.fd i }) := by
  unfold World.live World.fd
  split
  · rename_i s hs
    rw [hs]
    exact iff_of_true rfl rfl
  · rename_i other
    exact iff_of_false (fun hc => by cases hc) fun hs => other _ hs

theorem fdOf_neg : fdOf (some { fd := -1 }) = [] := rfl

theorem fdOf_fd {fd : Int} (h : fd ≠ -1) : fdOf (some { fd := fd }) = [fd] := if_neg h

/-- A new object, with the number it has. -/
theorem owned_append (slot : Option Socket) :
    Shares.whole fdOf (w.sockets ++ [slot]) = w.owned ++ fdOf slot := by
  rw [Shares.whole_append, Shares.whole_singleton]
  rfl

/-- An object that is rewritten. -/
theorem owned_set {i : Nat} {slot : Option Socket} (there : w.sockets[i]? = some slot)
    (new : Option Socket) :
    (Shares.whole fdOf (w.sockets.set i new) ++ fdOf slot).Perm (w.owned ++ fdOf new) :=
  Shares.set_perm fdOf there new

end Objects

namespace Owned

variable {w : World}

/-- A new socket, with a descriptor that no socket has. -/
theorem construct (h : Owned w.owned w) {fd : Int} {d : Nat} (there : w.table fd = some d)
    (other : fd ∉ w.owned) : Owned (w.construct fd).owned (w.construct fd) := by
  have nonneg := h.nonneg fd d there
  have gained := (h.gain there other).sockets (w.sockets ++ [some { fd := fd }])
  have more : (w.construct fd).owned = w.owned ++ [fd] := by
    rw [← fdOf_fd (show fd ≠ -1 by omega)]
    exact owned_append _
  have given : (w.table fd).toList = [d] := by rw [there]; rfl
  rw [more]
  unfold World.construct
  rw [given]
  exact gained.perm (List.perm_append_singleton fd w.owned).symm

/-- A new socket without a descriptor. -/
theorem constructEmpty (h : Owned w.owned w) :
    Owned w.constructEmpty.owned w.constructEmpty := by
  have same : w.constructEmpty.owned = w.owned := by
    refine (owned_append _).trans ?_
    rw [fdOf_neg, List.append_nil]
  rw [same]
  exact h.sockets _

theorem create (h : Owned w.owned w) {fd : Option Int} (free : fd.all w.available = true) :
    Owned (w.create fd).owned (w.create fd) := by
  cases fd with
  | none =>
    have unnamed : w.table (-1) = none := by
      cases names : w.table (-1) with
      | none => rfl
      | some d => exact absurd (h.nonneg _ _ names) (by decide)
    have same : w.construct (-1) = w.constructEmpty := by
      unfold World.construct World.constructEmpty
      rw [unnamed, Option.toList_none, List.append_nil]
    show Owned (w.construct (-1)).owned (w.construct (-1))
    rw [same]
    exact h.constructEmpty
  | some fd =>
    obtain ⟨nonneg, free⟩ := Bool.and_eq_true_iff.mp (show w.available fd = true from free)
    have other := h.not_owned (Option.isNone_iff_eq_none.mp free)
    have opened : Owned (w.openFd fd).owned (w.openFd fd) := by
      refine h.update other (Nat.le_succ _) fun d same => ?_
      obtain rfl := Option.some.inj same
      exact ⟨of_decide_eq_true nonneg, Nat.le_refl _, Nat.lt_succ_self _⟩
    exact opened.construct (Function.update_self ..) other

theorem moveConstruct (h : Owned w.owned w) {other : Nat} (live : w.live other = true) :
    Owned (w.moveConstruct other).owned (w.moveConstruct other) := by
  unfold World.moveConstruct
  split
  · rename_i owning
    refine (h.sockets ((w.setFd other (-1)).sockets ++ [some { fd := w.fd other }])).perm ?_
    have moved := owned_set (live_iff.mp live) (some { fd := -1 })
    rw [fdOf_fd owning, fdOf_neg, List.append_nil] at moved
    refine moved.symm.trans (List.Perm.of_eq ?_)
    rw [← fdOf_fd owning]
    exact (owned_append (w := w.setFd other (-1)) _).symm
  · exact h.constructEmpty

/-- A socket closes what it has, before it is rewritten. -/
theorem closeOwn (h : Owned w.owned w) {this : Nat} (live : w.live this = true) :
    ∃ fds, Owned fds (if w.fd this ≠ -1 then w.closeFd (w.fd this) else w) ∧
      ∀ new, (Shares.whole fdOf (w.sockets.set this new)).Perm (fds ++ fdOf new) := by
  have rewritten := owned_set (live_iff.mp live)
  have cleared := rewritten none
  rw [show fdOf none = [] from rfl, List.append_nil] at cleared
  refine ⟨Shares.whole fdOf (w.sockets.set this none), ?_, fun new => ?_⟩
  · split
    · rename_i owning
      rw [fdOf_fd owning] at cleared
      exact (h.perm (cleared.symm.trans (List.perm_append_singleton _ _))).close
    · rename_i empty
      rw [not_not.mp empty, fdOf_neg, List.append_nil] at cleared
      exact h.perm cleared.symm
  · have moved := (rewritten new).trans (cleared.symm.append_right _)
    refine (List.perm_append_right_iff (fdOf (some { fd := w.fd this }))).mp (moved.trans ?_)
    rw [List.append_assoc, List.append_assoc]
    exact List.perm_append_comm.append_left _

theorem moveAssign (h : Owned w.owned w) {this other : Nat} (live : w.live this = true)
    (liveOther : w.live other = true) :
    Owned (w.moveAssign this other).owned (w.moveAssign this other) := by
  unfold World.moveAssign
  by_cases empty : w.fd other = -1
  · rw [if_neg (not_not.mpr empty)]
    exact h
  · rw [if_pos empty]
    obtain ⟨fds, closed, rewritten⟩ := h.closeOwn live
    have sockets : (if w.fd this ≠ -1 then w.closeFd (w.fd this) else w).sockets = w.sockets := by
      split <;> rfl
    have owned : (Shares.whole fdOf ((w.sockets.set this (some { fd := w.fd other })).set other
        (some { fd := -1 }))).Perm fds := by
      by_cases same : this = other
      · have emptied := rewritten (some { fd := -1 })
        rw [fdOf_neg, List.append_nil] at emptied
        rw [same] at emptied ⊢
        rw [List.set_set]
        exact emptied
      · have there : (w.sockets.set this (some { fd := w.fd other }))[other]? =
            some (some { fd := w.fd other }) := by
          rw [List.getElem?_set_ne same]
          exact live_iff.mp liveOther
        have moved := Shares.set_perm fdOf there (some { fd := -1 })
        rw [fdOf_neg, List.append_nil] at moved
        have whole := moved.trans (rewritten (some { fd := w.fd other }))
        exact (List.perm_append_right_iff _).mp whole
    have final := (closed.perm owned.symm).sockets
      ((w.sockets.set this (some { fd := w.fd other })).set other (some { fd := -1 }))
    have still : (if w.fd this ≠ -1 then w.closeFd (w.fd this) else w).fd other = w.fd other := by
      split <;> rfl
    dsimp only [World.setFd]
    rw [sockets, still]
    exact final

theorem destroy (h : Owned w.owned w) {this : Nat} (live : w.live this = true) :
    Owned (w.destroy this).owned (w.destroy this) := by
  obtain ⟨fds, closed, rewritten⟩ := h.closeOwn live
  have sockets : (if w.fd this ≠ -1 then w.closeFd (w.fd this) else w).sockets = w.sockets := by
    split <;> rfl
  have gone := rewritten none
  rw [show fdOf none = [] from rfl, List.append_nil] at gone
  unfold World.destroy
  dsimp only
  rw [sockets]
  exact (closed.perm gone.symm).sockets _

/-- **Every call keeps the account.** -/
theorem call (h : Owned w.owned w) (op : Op) : Owned (w.call op).owned (w.call op) := by
  unfold World.call
  by_cases valid : w.valid op = true
  · rw [if_pos valid]
    have elsewhere : ∀ fd, ((w.table fd).isSome && !w.owned.contains fd) = true →
        ∃ d, w.table fd = some d ∧ fd ∉ w.owned := by
      intro fd both
      obtain ⟨there, other⟩ := Bool.and_eq_true_iff.mp both
      obtain ⟨d, names⟩ := Option.isSome_iff_exists.mp there
      refine ⟨d, names, fun mem => ?_⟩
      rw [List.contains_iff_mem.mpr mem] at other
      cases other
    cases op with
    | construct => exact h.constructEmpty
    | create fd => exact h.create valid
    | adopt fd =>
      obtain ⟨d, there, other⟩ := elsewhere fd valid
      exact h.construct there other
    | accept this fd =>
      refine h.create ?_
      obtain ⟨-, given⟩ := Bool.and_eq_true_iff.mp valid
      cases fd with
      | none => rfl
      | some fd => exact (Bool.and_eq_true_iff.mp given).1
    | moveConstruct other => exact h.moveConstruct valid
    | moveAssign this other =>
      obtain ⟨live, liveOther⟩ := Bool.and_eq_true_iff.mp valid
      exact h.moveAssign live liveOther
    | destroy this => exact h.destroy valid
    | openOther fd =>
      obtain ⟨nonneg, free⟩ := Bool.and_eq_true_iff.mp valid
      refine h.update (h.not_owned (Option.isNone_iff_eq_none.mp free)) (Nat.le_succ _) ?_
      intro d same
      obtain rfl := Option.some.inj same
      exact ⟨of_decide_eq_true nonneg, Nat.le_refl _, Nat.lt_succ_self _⟩
    | closeOther fd =>
      obtain ⟨d, there, other⟩ := elsewhere fd valid
      exact h.update other (Nat.le_refl _) fun d same => by cases same
  · rw [if_neg valid]
    exact h

/-- So does every sequence of calls. -/
theorem run (ops : List Op) {w : World} (h : Owned w.owned w) :
    Owned (w.run ops).owned (w.run ops) := by
  induction ops generalizing w with
  | nil => exact h
  | cons op ops ih => exact ih (h.call op)

end Owned

/-- **Sockets close what they were given, once, and nothing else.** After any calls, with numbers
that come back and descriptors of the rest of the program in between: the live sockets have
different numbers, and the descriptors they were given are open under them; no `close` has failed or
has closed a descriptor that no socket was given; and each descriptor that was given is with a live
socket or was closed by one, once, and not both. -/
theorem descriptors_closed_once (ops : List Op) :
    let w := ({} : World).run ops
    w.owned.Nodup ∧ (∀ fd ∈ w.owned, ∃ d ∈ w.given, w.table fd = some d) ∧
    (∀ c ∈ w.closes, ∃ d ∈ w.given, c.descriptor = some d) ∧
    (w.closes.map Closed.descriptor).Nodup ∧
    ∀ d ∈ w.given, (∃ fd ∈ w.owned, w.table fd = some d) ↔
      some d ∉ w.closes.map Closed.descriptor := by
  have h := Owned.start.run ops
  refine ⟨h.nodup, h.isOpen, fun c hc => ?_, h.closedOnce, fun d mem => ⟨?_, ?_⟩⟩
  · obtain ⟨d, mem, same, -⟩ := h.closes c hc
    exact ⟨d, mem, same⟩
  · rintro ⟨fd, -, there⟩ closed
    obtain ⟨c, hc, same⟩ := List.mem_map.mp closed
    obtain ⟨d', -, descriptor, gone⟩ := h.closes c hc
    rw [same] at descriptor
    obtain rfl := Option.some.inj descriptor
    exact gone fd there
  · exact fun notClosed => (h.kept d mem).resolve_right notClosed

/-- A socket assigned to itself closes its descriptor and has none; one assigned from an empty
socket keeps its own. -/
example :
    (({} : World).run [.create (some 3), .construct, .moveAssign 0 1, .moveAssign 0 0]).sockets
      = [some { fd := -1 }, some { fd := -1 }] ∧
    (({} : World).run [.create (some 3), .construct, .moveAssign 0 1, .moveAssign 0 0]).closes
      = [{ fd := 3, descriptor := some 0 }] := ⟨rfl, rfl⟩

end Bfc.Sockets
