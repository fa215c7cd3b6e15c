import Bfc.Lib.IndexedVector
import Bfc.PollReactor.Table

/-!
# The poll reactor's tables agree

`Consistent` says how the registration table and the poll vector belong together, and each
operation keeps it. The core is `IndexedVector.Linked`, instantiated with a poll entry's owner and
kind as its key and the table's poll indices as its positions; the wake entry has a key of its own
that never leaves position 0. Around it stand the payload (a poll entry carries the descriptor and
the generation of its registration), the generations, and the flags of each table entry.

All changes the operations make come down to four: a table entry is rewritten in place
(`Consistent.putEntry`), a poll entry is rewritten in place (`Consistent.setEntry`), a
registration gets a new poll entry (`Consistent.register`), and a registration gives up the one it
has (`Consistent.unregister`). Each comes with its frame: the poll entries of every other
descriptor stay, and its table entry changes in its indices at most.
-/

namespace Bfc.PollReactor

open IndexedVector

variable {κ : Type*}

/-! ## Both registrations of an entry, by kind -/

/-- A registration's name: the descriptor and the kind. -/
abbrev Key := Int × PollKind

/-- The registration a poll entry belongs to. -/
def PollEntry.key (p : PollEntry) : Key := (p.ownerFd, p.kind)

namespace FdEntry

/-- The poll index of a kind. -/
def indexOf (e : FdEntry κ) : PollKind → Option Nat
  | .wake => none
  | .read => e.readPollIndex
  | .write => e.writePollIndex

/-- The generation of a kind. -/
def genOf (e : FdEntry κ) : PollKind → Nat
  | .wake => 0
  | .read => e.readGen
  | .write => e.writeGen

/-- The context of a kind. -/
def ctxOf (e : FdEntry κ) : PollKind → FdCtx κ
  | .wake => {}
  | .read => e.readCtx
  | .write => e.writeCtx

/-- The active flag of a kind. -/
def activeOf (e : FdEntry κ) : PollKind → Bool
  | .wake => false
  | .read => e.readActive
  | .write => e.writeActive

/-- What `update_poll_index` does to an entry. -/
def setIndex (e : FdEntry κ) : PollKind → Nat → FdEntry κ
  | .wake, _ => e
  | .read, i => { e with readPollIndex := some i }
  | .write, i => { e with writePollIndex := some i }

/-- What a removal leaves of a registration. -/
def clear (e : FdEntry κ) : PollKind → FdEntry κ
  | .wake => e
  | .read => { e with readActive := false, readCtx := {}, readPollIndex := none }
  | .write => { e with writeActive := false, writeCtx := {}, writePollIndex := none }

/-- An entry without its poll indices: what a removal elsewhere may not change. -/
def unplaced (e : FdEntry κ) : FdEntry κ :=
  { e with readPollIndex := none, writePollIndex := none }

@[simp] theorem setIndex_fd (e : FdEntry κ) (k : PollKind) (i : Nat) :
    (e.setIndex k i).fd = e.fd := by
  cases k <;> rfl

@[simp] theorem setIndex_ctxOf (e : FdEntry κ) (k k' : PollKind) (i : Nat) :
    (e.setIndex k i).ctxOf k' = e.ctxOf k' := by
  cases k <;> cases k' <;> rfl

@[simp] theorem setIndex_genOf (e : FdEntry κ) (k k' : PollKind) (i : Nat) :
    (e.setIndex k i).genOf k' = e.genOf k' := by
  cases k <;> cases k' <;> rfl

@[simp] theorem setIndex_activeOf (e : FdEntry κ) (k k' : PollKind) (i : Nat) :
    (e.setIndex k i).activeOf k' = e.activeOf k' := by
  cases k <;> cases k' <;> rfl

@[simp] theorem setIndex_unplaced (e : FdEntry κ) (k : PollKind) (i : Nat) :
    (e.setIndex k i).unplaced = e.unplaced := by
  cases k <;> rfl

theorem setIndex_indexOf (e : FdEntry κ) (k k' : PollKind) (i : Nat) (hk : k ≠ .wake) :
    (e.setIndex k i).indexOf k' = if k' = k then some i else e.indexOf k' := by
  cases k <;> cases k' <;> first | rfl | exact absurd rfl hk

theorem setIndex_self {e : FdEntry κ} {k : PollKind} {i : Nat} (h : e.indexOf k = some i) :
    e.setIndex k i = e := by
  cases k with
  | wake => rfl
  | read => simp only [indexOf] at h; simp only [setIndex, ← h]
  | write => simp only [indexOf] at h; simp only [setIndex, ← h]

@[simp] theorem clear_fd (e : FdEntry κ) (k : PollKind) : (e.clear k).fd = e.fd := by
  cases k <;> rfl

theorem clear_indexOf (e : FdEntry κ) (k k' : PollKind) :
    (e.clear k).indexOf k' = if k' = k then none else e.indexOf k' := by
  cases k <;> cases k' <;> rfl

theorem clear_activeOf (e : FdEntry κ) (k k' : PollKind) :
    (e.clear k).activeOf k' = if k' = k then false else e.activeOf k' := by
  cases k <;> cases k' <;> rfl

theorem clear_ctxOf_ne (e : FdEntry κ) {k k' : PollKind} (h : k' ≠ k) :
    (e.clear k).ctxOf k' = e.ctxOf k' := by
  cases k <;> cases k' <;> first | rfl | exact absurd rfl h

@[simp] theorem clear_genOf (e : FdEntry κ) (k k' : PollKind) :
    (e.clear k).genOf k' = e.genOf k' := by
  cases k <;> cases k' <;> rfl

end FdEntry

/-- The table's positions: a registration's poll index, and 0 for the wake entry. -/
def Reactor.indexTable (s : Reactor κ) : Key → Option Nat
  | (fd, .wake) => if fd = -1 then some 0 else none
  | (fd, k) => (s.fdEntries fd).bind fun e => e.indexOf k

theorem indexTable_wake (s : Reactor κ) (fd : Int) :
    s.indexTable (fd, .wake) = if fd = -1 then some 0 else none := rfl

theorem indexTable_of_ne (s : Reactor κ) (fd : Int) {k : PollKind} (hk : k ≠ .wake) :
    s.indexTable (fd, k) = (s.fdEntries fd).bind fun e => e.indexOf k := by
  cases k <;> first | rfl | exact absurd rfl hk

theorem indexTable_of_entry {s : Reactor κ} {fd : Int} {e : FdEntry κ} {k : PollKind}
    (hk : k ≠ .wake) (he : s.fdEntries fd = some e) : s.indexTable (fd, k) = e.indexOf k := by
  rw [indexTable_of_ne s fd hk, he, Option.bind_some]

/-! ## The invariant -/

/-- What holds of a single table entry: it is under its own descriptor, a registration is active
exactly if it has a poll index, an active read watches the descriptor itself, and the write side
holds a duplicate exactly while it is active. -/
structure EntryOk (fd : Int) (e : FdEntry κ) : Prop where
  named : e.fd = fd
  active_iff : ∀ k, e.activeOf k = (e.indexOf k).isSome
  readFd : e.readActive = true → e.readCtx.fd = fd
  writeFd : e.writeCtx.fd ≠ -1 ↔ e.writeActive = true

/-- Moving a registration's poll entry keeps its table entry in order. -/
theorem EntryOk.setIndex {fd : Int} {e : FdEntry κ} (h : EntryOk fd e) {k : PollKind} {i : Nat}
    (placed : (e.indexOf k).isSome) : EntryOk fd (e.setIndex k i) where
  named := by rw [FdEntry.setIndex_fd]; exact h.named
  active_iff k' := by
    rw [FdEntry.setIndex_activeOf, h.active_iff]
    cases k <;> cases k' <;> first | rfl | exact placed
  readFd := by cases k <;> exact h.readFd
  writeFd := by cases k <;> exact h.writeFd

/-- Giving up a registration keeps its table entry in order. -/
theorem EntryOk.clear {fd : Int} {e : FdEntry κ} (h : EntryOk fd e) (k : PollKind) :
    EntryOk fd (e.clear k) where
  named := by rw [FdEntry.clear_fd]; exact h.named
  active_iff k' := by
    rw [FdEntry.clear_activeOf, FdEntry.clear_indexOf, h.active_iff]
    split <;> rfl
  readFd := by
    cases k with
    | read => intro active; cases active
    | wake => exact h.readFd
    | write => exact h.readFd
  writeFd := by
    cases k with
    | write => exact ⟨fun ne => absurd rfl ne, fun active => by cases active⟩
    | wake => exact h.writeFd
    | read => exact h.writeFd

/-- A read registration in an entry that is in order. -/
theorem EntryOk.watchRead {fd : Int} {e : FdEntry κ} (h : EntryOk fd e) (cb : Option κ)
    (i gen : Nat) : EntryOk fd { e with
      readCtx := { fd := fd, cb := cb }, readActive := true, readPollIndex := some i
      readGen := gen } where
  named := h.named
  active_iff k := by
    cases k with
    | wake => rfl
    | read => rfl
    | write => exact h.active_iff .write
  readFd _ := rfl
  writeFd := h.writeFd

/-- A write registration, on an open duplicate, in an entry that is in order. -/
theorem EntryOk.watchWrite {fd : Int} {e : FdEntry κ} (h : EntryOk fd e) {ctxFd : Int}
    (opened : ctxFd ≠ -1) (cb : Option κ) (i gen : Nat) : EntryOk fd { e with
      writeCtx := { fd := ctxFd, cb := cb }, writeActive := true, writePollIndex := some i
      writeGen := gen } where
  named := h.named
  active_iff k := by
    cases k with
    | wake => rfl
    | read => exact h.active_iff .read
    | write => rfl
  readFd := h.readFd
  writeFd := ⟨fun _ => rfl, fun _ => opened⟩

/-- A poll entry carries the watched descriptor and the generation of its registration. -/
def Backed (e : FdEntry κ) (p : PollEntry) : Prop :=
  p.pfd.fd = (e.ctxOf p.kind).fd ∧ p.gen = e.genOf p.kind

/-- The registration table and the poll vector agree. -/
structure Consistent (wake : PollEntry) (s : Reactor κ) : Prop where
  wakeKey : wake.key = (-1, .wake)
  wakeQuiet : wake.pfd.revents = 0
  wakeFirst : s.pollEntries[0]? = some wake
  linked : Linked PollEntry.key s.indexTable s.pollEntries
  backed : ∀ p ∈ s.pollEntries, p.kind ≠ .wake → ∀ e, s.fdEntries p.ownerFd = some e → Backed e p
  gens : (s.pollEntries.map (·.gen)).Nodup
  gen_le : ∀ p ∈ s.pollEntries, p.gen ≤ s.gen
  entries : ∀ fd e, s.fdEntries fd = some e → EntryOk fd e
  unguarded : s.guardHits = 0

/-- What a step on one descriptor leaves alone: the poll entries of the others and the wake entry,
and the others' table entries but for their poll indices. -/
structure Frame (fd : Int) (s s' : Reactor κ) : Prop where
  polled : ∀ p : PollEntry, p.ownerFd ≠ fd ∨ p.kind = .wake →
    (p ∈ s'.pollEntries ↔ p ∈ s.pollEntries)
  table : ∀ fd', fd' ≠ fd →
    (s'.fdEntries fd').map FdEntry.unplaced = (s.fdEntries fd').map FdEntry.unplaced

theorem Frame.refl (fd : Int) (s : Reactor κ) : Frame fd s s := ⟨fun _ _ => .rfl, fun _ _ => rfl⟩

theorem Frame.trans {fd : Int} {a b c : Reactor κ} (h : Frame fd a b) (h' : Frame fd b c) :
    Frame fd a c :=
  ⟨fun p hp => (h'.polled p hp).trans (h.polled p hp),
    fun fd' hf => (h'.table fd' hf).trans (h.table fd' hf)⟩

/-- The invariant after a step on a descriptor, and the step's frame. -/
structure Kept (wake : PollEntry) (fd : Int) (s s' : Reactor κ) : Prop where
  consistent : Consistent wake s'
  frame : Frame fd s s'

theorem Kept.trans {wake : PollEntry} {fd : Int} {a b c : Reactor κ} (h : Kept wake fd a b)
    (h' : Kept wake fd b c) : Kept wake fd a c :=
  ⟨h'.consistent, h.frame.trans h'.frame⟩

namespace Consistent

variable {wake : PollEntry} {s : Reactor κ}

/-- A registration with a poll index has its poll entry there, and not at the wake entry's
place. -/
theorem at_index (h : Consistent wake s) {fd : Int} {e : FdEntry κ} {k : PollKind} {i : Nat}
    (he : s.fdEntries fd = some e) (hi : e.indexOf k = some i) :
    k ≠ .wake ∧ i ≠ 0 ∧ ∃ p, s.pollEntries[i]? = some p ∧ p.key = (fd, k) ∧
      s.pollEntryAt (some i) = some (i, p) := by
  have hk : k ≠ .wake := by
    rintro rfl
    cases hi
  obtain ⟨p, hp, hkey⟩ := h.linked.ref (k := (fd, k))
    ((indexTable_of_entry hk he).trans hi)
  refine ⟨hk, ?_, p, hp, hkey, by simp [Reactor.pollEntryAt, hp]⟩
  rintro rfl
  rw [h.wakeFirst] at hp
  rw [← Option.some.inj hp, h.wakeKey] at hkey
  exact hk (congrArg Prod.snd hkey).symm

/-- A poll entry of a registration has a table entry, whose registration is active. -/
theorem owner (h : Consistent wake s) {p : PollEntry} (hp : p ∈ s.pollEntries)
    (hk : p.kind ≠ .wake) :
    ∃ e i, s.fdEntries p.ownerFd = some e ∧ e.indexOf p.kind = some i ∧
      s.pollEntries[i]? = some p ∧ e.activeOf p.kind = true ∧ Backed e p := by
  obtain ⟨i, hi, hpi⟩ := h.linked.of_mem hp
  rw [PollEntry.key, indexTable_of_ne s _ hk] at hi
  obtain ⟨e, he, hei⟩ := Option.bind_eq_some_iff.mp hi
  refine ⟨e, i, he, hei, hpi, ?_, h.backed p hp hk e he⟩
  rw [(h.entries _ e he).active_iff, hei]
  rfl

/-! ## The four changes -/

/-- Rewriting a table entry in place: its indices stay, and so do the watched descriptor and the
generation of a registration that has one. -/
theorem putEntry (h : Consistent wake s) {fd : Int} {e : FdEntry κ} (ok : EntryOk fd e)
    (index : ∀ k, e.indexOf k = (s.entryOf fd).indexOf k)
    (payload : ∀ k i, e.indexOf k = some i →
      (e.ctxOf k).fd = ((s.entryOf fd).ctxOf k).fd ∧ e.genOf k = (s.entryOf fd).genOf k) :
    Kept wake fd s (s.putEntry fd e) := by
  have table : ∀ key, (s.putEntry fd e).indexTable key = s.indexTable key := by
    rintro ⟨fd', k⟩
    by_cases hk : k = .wake
    · subst hk; rfl
    · rw [indexTable_of_ne _ _ hk, indexTable_of_ne _ _ hk]
      by_cases hf : fd' = fd
      · subst hf
        have hidx := index k
        simp only [Reactor.putEntry, Function.update_self, Option.bind_some, hidx,
          Reactor.entryOf]
        cases s.fdEntries fd' with
        | some old => rfl
        | none => cases k <;> rfl
      · simp only [Reactor.putEntry, Function.update_of_ne hf]
  refine ⟨{ h with linked := h.linked.congr table, backed := ?_, entries := ?_ }, ?_⟩
  · intro p hp hk e' he'
    by_cases hf : p.ownerFd = fd
    · obtain ⟨old, i, hold, hi, -, -, hb⟩ := h.owner hp hk
      have hentry : s.entryOf fd = old := by rw [Reactor.entryOf, ← hf, hold, Option.getD_some]
      have hee : e = e' := by
        simpa only [Reactor.putEntry, hf, Function.update_self, Option.some.injEq] using he'
      have := payload p.kind i (by rw [index, hentry, hi])
      rw [hentry] at this
      rw [← hee]
      exact ⟨hb.1.trans this.1.symm, hb.2.trans this.2.symm⟩
    · rw [Reactor.putEntry] at he'
      simp only [Function.update_of_ne hf] at he'
      exact h.backed p hp hk e' he'
  · intro fd' e' he'
    by_cases hf : fd' = fd
    · subst hf
      simp only [Reactor.putEntry, Function.update_self, Option.some.injEq] at he'
      exact he' ▸ ok
    · simp only [Reactor.putEntry, Function.update_of_ne hf] at he'
      exact h.entries fd' e' he'
  · refine ⟨fun _ _ => .rfl, fun fd' hf => ?_⟩
    simp only [Reactor.putEntry, Function.update_of_ne hf]

/-- Rewriting a poll entry's requested events in place. -/
theorem setEntry (h : Consistent wake s) {i : Nat} {p q : PollEntry} (hi : i ≠ 0)
    (hp : s.pollEntries[i]? = some p) (key : q.key = p.key) (gen : q.gen = p.gen)
    (fd : q.pfd.fd = p.pfd.fd) :
    Kept wake p.ownerFd s { s with pollEntries := s.pollEntries.set i q } := by
  have hlt := (List.getElem?_eq_some_iff.mp hp).1
  have hmem : p ∈ s.pollEntries := List.mem_of_getElem? hp
  have owner : q.ownerFd = p.ownerFd := congrArg Prod.fst key
  have kind : q.kind = p.kind := congrArg Prod.snd key
  have map : (s.pollEntries.set i q).map (·.gen) = s.pollEntries.map (·.gen) :=
    map_set_of_eq (·.gen) hp gen
  refine ⟨{ h with
      wakeFirst := ?_
      linked := h.linked.set hp key
      backed := ?_
      gens := map ▸ h.gens
      gen_le := ?_ }, ?_⟩
  · show (s.pollEntries.set i q)[0]? = some wake
    rw [List.getElem?_set_ne hi, h.wakeFirst]
  · intro r hr hk e he
    rcases List.mem_or_eq_of_mem_set hr with hr | rfl
    · exact h.backed r hr hk e he
    · rw [owner] at he
      rw [kind] at hk
      have hb := h.backed p hmem hk e he
      rw [Backed, kind, gen, fd]
      exact hb
  · intro r hr
    rcases List.mem_or_eq_of_mem_set hr with hr | rfl
    · exact h.gen_le r hr
    · rw [gen]
      exact h.gen_le p hmem
  · refine ⟨fun r hr => ?_, fun _ _ => rfl⟩
    have hne : r.ownerFd = p.ownerFd → r.kind = p.kind → False := by
      intro ho hk
      rcases hr with hr | hr
      · exact hr ho
      · have h0 := h.linked.key_inj h.wakeFirst hp (by
          rw [h.wakeKey]
          have := h.linked.back hp
          rw [PollEntry.key, ← hk, hr, indexTable_wake] at this
          split at this
          · rename_i hm
            rw [PollEntry.key, ← hk, hr, hm]
          · cases this)
        exact hi h0.symm
    constructor
    · intro hm
      rcases List.mem_or_eq_of_mem_set hm with hm | rfl
      · exact hm
      · exact (hne owner kind).elim
    · intro hm
      obtain ⟨j, hj⟩ := List.mem_iff_getElem?.mp hm
      refine List.mem_iff_getElem?.mpr ⟨j, ?_⟩
      rw [List.getElem?_set_ne, hj]
      rintro rfl
      rw [hp] at hj
      cases hj
      exact hne rfl rfl

/-- A registration without a poll entry gets a new one, at the end of the vector and with the
next generation. -/
theorem register (h : Consistent wake s) {fd : Int} {k : PollKind} (hk : k ≠ .wake)
    (fresh : (s.entryOf fd).indexOf k = none) {e : FdEntry κ} (ok : EntryOk fd e)
    (here : e.indexOf k = some s.pollEntries.length) (gen : e.genOf k = s.gen + 1)
    (other : ∀ k', k' ≠ k → e.indexOf k' = (s.entryOf fd).indexOf k' ∧
      (e.ctxOf k').fd = ((s.entryOf fd).ctxOf k').fd ∧ e.genOf k' = (s.entryOf fd).genOf k')
    {p : PollEntry} (key : p.key = (fd, k)) (pgen : p.gen = s.gen + 1)
    (pfd : p.pfd.fd = (e.ctxOf k).fd) {s' : Reactor κ}
    (entries : s'.fdEntries = Function.update s.fdEntries fd (some e))
    (polled : s'.pollEntries = s.pollEntries ++ [p]) (counter : s'.gen = s.gen + 1)
    (guard : s'.guardHits = s.guardHits) : Kept wake fd s s' := by
  have owner : p.ownerFd = fd := congrArg Prod.fst key
  have kind : p.kind = k := congrArg Prod.snd key
  have lookup : ∀ k', k' ≠ .wake →
      s.indexTable (fd, k') = (s.entryOf fd).indexOf k' := by
    intro k' hk'
    rw [indexTable_of_ne s fd hk', Reactor.entryOf]
    cases s.fdEntries fd with
    | some old => rfl
    | none => cases k' <;> rfl
  have table : ∀ key', key' ≠ (fd, k) → s'.indexTable key' = s.indexTable key' := by
    rintro ⟨fd', k'⟩ hne
    by_cases hw : k' = .wake
    · subst hw; rfl
    · by_cases hf : fd' = fd
      · subst hf
        have hkk : k' ≠ k := fun e => hne (by rw [e])
        rw [lookup k' hw, indexTable_of_ne s' fd' hw, entries, Function.update_self,
          Option.bind_some, (other k' hkk).1]
      · rw [indexTable_of_ne s' fd' hw, indexTable_of_ne s fd' hw, entries,
          Function.update_of_ne hf]
  refine ⟨{
      wakeKey := h.wakeKey
      wakeQuiet := h.wakeQuiet
      wakeFirst := ?_
      linked := ?_
      backed := ?_
      gens := ?_
      gen_le := ?_
      entries := ?_
      unguarded := guard.trans h.unguarded }, ?_⟩
  · rw [polled, List.getElem?_append_left (List.getElem?_eq_some_iff.mp h.wakeFirst).1]
    exact h.wakeFirst
  · rw [polled]
    refine h.linked.push ?_ ?_ ?_
    · rw [key, lookup k hk, fresh]
    · rw [key, indexTable_of_ne s' fd hk, entries, Function.update_self, Option.bind_some, here]
    · rw [key]
      exact table
  · intro q hq hqk e' he'
    rw [polled] at hq
    rw [entries] at he'
    rcases List.mem_append.mp hq with hq | hq
    · by_cases hf : q.ownerFd = fd
      · have hkk : q.kind ≠ k := fun hkk => by
          obtain ⟨i, hi, -⟩ := h.linked.of_mem hq
          rw [PollEntry.key, hf, hkk, lookup k hk, fresh] at hi
          cases hi
        obtain ⟨old, i, hold, -, -, -, hb⟩ := h.owner hq hqk
        have hentry : s.entryOf fd = old := by rw [Reactor.entryOf, ← hf, hold, Option.getD_some]
        rw [hf, Function.update_self] at he'
        obtain rfl : e = e' := Option.some.inj he'
        obtain ⟨-, ho1, ho2⟩ := other q.kind hkk
        rw [hentry] at ho1 ho2
        exact ⟨hb.1.trans ho1.symm, hb.2.trans ho2.symm⟩
      · rw [Function.update_of_ne hf] at he'
        exact h.backed q hq hqk e' he'
    · obtain rfl : q = p := List.mem_singleton.mp hq
      rw [owner, Function.update_self] at he'
      obtain rfl : e = e' := Option.some.inj he'
      rw [Backed, kind]
      exact ⟨pfd, pgen.trans gen.symm⟩
  · rw [polled, List.map_append, List.nodup_append]
    refine ⟨h.gens, List.nodup_singleton _, ?_⟩
    rintro a ha b hb rfl
    obtain ⟨q, hq, rfl⟩ := List.mem_map.mp ha
    have hqp : q.gen = p.gen := List.mem_singleton.mp hb
    have := h.gen_le q hq
    omega
  · intro q hq
    rw [polled] at hq
    rw [counter]
    rcases List.mem_append.mp hq with hq | hq
    · exact Nat.le_succ_of_le (h.gen_le q hq)
    · exact Nat.le_of_eq (by rw [List.mem_singleton.mp hq, pgen])
  · intro fd' e' he'
    rw [entries] at he'
    by_cases hf : fd' = fd
    · subst hf
      rw [Function.update_self] at he'
      exact Option.some.inj he' ▸ ok
    · rw [Function.update_of_ne hf] at he'
      exact h.entries fd' e' he'
  · refine ⟨fun q hq => ?_, fun fd' hf => ?_⟩
    · rw [polled, List.mem_append]
      refine ⟨fun hm => hm.resolve_right fun hm => ?_, .inl⟩
      rw [List.mem_singleton.mp hm, owner, kind] at hq
      rcases hq with hq | hq
      · exact hq rfl
      · exact hk hq
    · rw [entries, Function.update_of_ne hf]

/-- The table entry of a descriptor after registration `(fd, k)` gave up its poll entry at `i`,
where the last poll entry `m` moved. -/
def afterRemoval (fd : Int) (k : PollKind) (m : PollEntry) (i : Nat) (fd' : Int)
    (e : FdEntry κ) : FdEntry κ :=
  let e := if fd' = m.ownerFd then e.setIndex m.kind i else e
  if fd' = fd then e.clear k else e

/-- The indices of the other registrations change only where the last poll entry moved. -/
theorem afterRemoval_indexOf {fd fd' : Int} {k k' : PollKind} (ne : (fd', k') ≠ (fd, k))
    (m : PollEntry) (i : Nat) (e : FdEntry κ) : (afterRemoval fd k m i fd' e).indexOf k' =
      (if fd' = m.ownerFd then e.setIndex m.kind i else e).indexOf k' := by
  rw [afterRemoval]
  split
  · rename_i hf
    have hkk : k' ≠ k := fun hkk => ne (by rw [hf, hkk])
    rw [FdEntry.clear_indexOf, if_neg hkk]
  · rfl

theorem afterRemoval_ctxOf {fd fd' : Int} {k k' : PollKind} (ne : (fd', k') ≠ (fd, k))
    (m : PollEntry) (i : Nat) (e : FdEntry κ) :
    (afterRemoval fd k m i fd' e).ctxOf k' = e.ctxOf k' := by
  have moved : (if fd' = m.ownerFd then e.setIndex m.kind i else e).ctxOf k' = e.ctxOf k' := by
    split
    · rw [FdEntry.setIndex_ctxOf]
    · rfl
  rw [afterRemoval]
  split
  · rename_i hf
    have hkk : k' ≠ k := fun hkk => ne (by rw [hf, hkk])
    rw [FdEntry.clear_ctxOf_ne _ hkk, moved]
  · exact moved

theorem afterRemoval_genOf (fd fd' : Int) (k k' : PollKind) (m : PollEntry) (i : Nat)
    (e : FdEntry κ) : (afterRemoval fd k m i fd' e).genOf k' = e.genOf k' := by
  rw [afterRemoval]
  split <;> split <;> simp only [FdEntry.clear_genOf, FdEntry.setIndex_genOf]

theorem afterRemoval_unplaced {fd fd' : Int} (ne : fd' ≠ fd) (k : PollKind) (m : PollEntry)
    (i : Nat) (e : FdEntry κ) : (afterRemoval fd k m i fd' e).unplaced = e.unplaced := by
  rw [afterRemoval, if_neg ne]
  split
  · rw [FdEntry.setIndex_unplaced]
  · rfl

/-- A table entry stays in order when one of its registrations is given up, and when the last
poll entry, if that is its own, moves. -/
theorem afterRemoval_ok {fd fd' : Int} {e : FdEntry κ} (ok : EntryOk fd' e) {m : PollEntry}
    (placed : fd' = m.ownerFd → (e.indexOf m.kind).isSome) (k : PollKind) (i : Nat) :
    EntryOk fd' (afterRemoval fd k m i fd' e) := by
  have moved : EntryOk fd' (if fd' = m.ownerFd then e.setIndex m.kind i else e) := by
    split
    · rename_i hf
      exact ok.setIndex (placed hf)
    · exact ok
  rw [afterRemoval]
  split
  · exact moved.clear k
  · exact moved

/-- A registration gives up its poll entry: the last poll entry takes the place, and its owner
learns so. -/
theorem unregister (h : Consistent wake s) {fd : Int} {e : FdEntry κ} {k : PollKind} {i : Nat}
    (he : s.fdEntries fd = some e) (hi : e.indexOf k = some i) {m : PollEntry}
    (hm : s.pollEntries[s.pollEntries.length - 1]? = some m) {s' : Reactor κ}
    (entries : ∀ fd', s'.fdEntries fd' = (s.fdEntries fd').map (afterRemoval fd k m i fd'))
    (polled : s'.pollEntries = swapRemove s.pollEntries i) (counter : s'.gen = s.gen)
    (guard : s'.guardHits = s.guardHits) : Kept wake fd s s' := by
  obtain ⟨hk, hi0, p, hp, hkey, -⟩ := h.at_index he hi
  have hlt := (List.getElem?_eq_some_iff.mp hp).1
  have owner : p.ownerFd = fd := congrArg Prod.fst hkey
  have kind : p.kind = k := congrArg Prod.snd hkey
  have hmk : m.kind ≠ .wake := fun hw => by
    have hb := h.linked.back hm
    rw [PollEntry.key, hw, indexTable_wake] at hb
    split at hb
    · have := Option.some.inj hb
      omega
    · cases hb
  obtain ⟨em, im, hem, him, him', hactive, -⟩ := h.owner (List.mem_of_getElem? hm) hmk
  -- the position of a registration other than the one given up
  have table : ∀ fd' k', k' ≠ .wake → (fd', k') ≠ (fd, k) → s'.indexTable (fd', k') =
      if (fd', k') = m.key then some i else s.indexTable (fd', k') := by
    intro fd' k' hk' hne
    rw [indexTable_of_ne s' fd' hk', indexTable_of_ne s fd' hk', entries fd']
    cases hfd : s.fdEntries fd' with
    | none =>
      simp only [Option.map_none, Option.bind_none]
      rw [if_neg]
      intro hkm
      rw [show fd' = m.ownerFd from congrArg Prod.fst hkm, hem] at hfd
      cases hfd
    | some e' =>
      simp only [Option.map_some, Option.bind_some, afterRemoval_indexOf hne]
      by_cases hf : fd' = m.ownerFd
      · rw [if_pos hf, FdEntry.setIndex_indexOf _ _ _ _ hmk]
        simp [PollEntry.key, hf]
      · rw [if_neg hf, if_neg]
        exact fun hkm => hf (congrArg Prod.fst hkm)
  have gone : s'.indexTable (fd, k) = none := by
    rw [indexTable_of_ne s' fd hk, entries fd, he, Option.map_some, Option.bind_some,
      afterRemoval, if_pos rfl, FdEntry.clear_indexOf, if_pos rfl]
  have linked : Linked PollEntry.key s'.indexTable (swapRemove s.pollEntries i) := by
    refine h.linked.swapRemove ((indexTable_of_entry hk he).trans hi) hm gone
      (fun hne => (table _ _ hmk hne).trans (if_pos rfl)) ?_
    rintro ⟨fd', k'⟩ hne hnm
    by_cases hw : k' = .wake
    · subst hw; rfl
    · rw [table fd' k' hw hne, if_neg hnm]
  refine ⟨{
      wakeKey := h.wakeKey
      wakeQuiet := h.wakeQuiet
      wakeFirst := ?_
      linked := ?_
      backed := ?_
      gens := ?_
      gen_le := ?_
      entries := ?_
      unguarded := guard.trans h.unguarded }, ?_⟩
  · rw [polled, getElem?_swapRemove hlt, if_pos (by omega), if_neg (Ne.symm hi0)]
    exact h.wakeFirst
  · rw [polled]
    exact linked
  · intro q hq hqk e' he'
    rw [polled] at hq
    have hqm := mem_of_mem_swapRemove hlt hq
    rw [entries q.ownerFd] at he'
    obtain ⟨old, hold, rfl⟩ := Option.map_eq_some_iff.mp he'
    have hb := h.backed q hqm hqk old hold
    have kept : (q.ownerFd, q.kind) ≠ (fd, k) := by
      intro hkey
      obtain ⟨j, hj, -⟩ := linked.of_mem hq
      rw [PollEntry.key, hkey, gone] at hj
      cases hj
    exact ⟨hb.1.trans (by rw [afterRemoval_ctxOf kept]),
      hb.2.trans (afterRemoval_genOf ..).symm⟩
  · rw [polled]
    exact nodup_map_swapRemove _ hlt h.gens
  · intro q hq
    rw [polled] at hq
    rw [counter]
    exact h.gen_le q (mem_of_mem_swapRemove hlt hq)
  · intro fd' e' he'
    rw [entries fd'] at he'
    obtain ⟨old, hold, rfl⟩ := Option.map_eq_some_iff.mp he'
    refine afterRemoval_ok (h.entries fd' old hold) (fun hf => ?_) k i
    rw [hf, hem] at hold
    rw [← Option.some.inj hold, him]
    rfl
  · refine ⟨fun q hq => ?_, fun fd' hf => ?_⟩
    · rw [polled]
      refine ⟨mem_of_mem_swapRemove hlt, fun hm' => (swapRemove_perm hlt).symm.subset ?_⟩
      refine List.mem_eraseIdx_iff_getElem?.mpr ?_
      obtain ⟨j, hj⟩ := List.mem_iff_getElem?.mp hm'
      refine ⟨j, ?_, hj⟩
      rintro rfl
      rw [hp] at hj
      obtain rfl := Option.some.inj hj
      rcases hq with hq | hq
      · exact hq owner
      · exact hk (kind.symm.trans hq)
    · rw [entries fd', Option.map_map]
      congr 1
      funext old
      exact afterRemoval_unplaced hf k m i old

end Consistent

end Bfc.PollReactor
