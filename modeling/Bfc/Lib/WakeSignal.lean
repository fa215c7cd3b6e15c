import Mathlib.Logic.Function.Basic

/-!
# Coalesced wake-up signals

A server sleeps on a channel; callers who want it awake write to the channel, but only the caller
that turns a shared flag on does so, and the others rely on that one write. The server turns the
flag off again after it has drained the channel. This is the usual way to keep a pipe or an event
counter from filling up, and the usual question is whether a caller can rely on a write that the
server has consumed already.

It cannot, and the reason is the token. While the flag is on there is exactly one holder of the
duty to get the server to its work: the value in the channel, the caller about to write it, or
the server between its drain and its store (`Token`). So a request is never dropped: from the
moment a caller begins, the server owes a round of its work (`Owed`), and it goes on owing it
until it starts one.
-/

namespace WakeSignal

/-- Where a caller is: outside, before its compare-exchange, or before its write. -/
inductive Phase where
  | away
  | claiming
  | writing
deriving DecidableEq

/-- Where the server is: asleep or at anything else, draining the channel, about to turn the flag
off, or ready to start a round of its work. -/
inductive Server where
  | away
  | draining
  | clearing
  | ready
deriving DecidableEq

/-- The flag, the number of unread values in the channel, and where everyone is. -/
structure State (ι : Type*) where
  pending : Bool
  channel : Nat
  callers : ι → Phase
  server : Server

variable {ι : Type*}

/-- The caller goes on to `phase`. -/
def State.goto [DecidableEq ι] (s : State ι) (c : ι) (phase : Phase) : State ι :=
  { s with callers := Function.update s.callers c phase }

/-- A step of the protocol; the channel has room for `room` values. -/
inductive Step [DecidableEq ι] (room : Nat) (s : State ι) : State ι → Prop
  | request (c : ι) : s.callers c = .away → Step room s (s.goto c .claiming)
  | rely (c : ι) : s.callers c = .claiming → s.pending = true → Step room s (s.goto c .away)
  | claim (c : ι) : s.callers c = .claiming → s.pending = false →
      Step room s ({ s with pending := true }.goto c .writing)
  | write (c : ι) : s.callers c = .writing → s.channel < room →
      Step room s ({ s with channel := s.channel + 1 }.goto c .away)
  | full (c : ι) : s.callers c = .writing → room ≤ s.channel → Step room s (s.goto c .away)
  | wake : s.server = .away → 0 < s.channel → Step room s { s with server := .draining }
  | arrive : s.server = .away → Step room s { s with server := .ready }
  | read (k : Nat) : s.server = .draining → 0 < s.channel → 0 < k →
      Step room s { s with channel := s.channel - k }
  | drained : s.server = .draining → s.channel = 0 → Step room s { s with server := .clearing }
  | clear : s.server = .clearing → Step room s { s with pending := false, server := .ready }

/-- The server starts a round of its work. -/
def Serve (s t : State ι) : Prop := s.server = .ready ∧ t = { s with server := .away }

/-! ## The token -/

/-- Who has to get the server to its work: the value in the channel, a caller, or the server. -/
inductive Holder (ι : Type*) where
  | channel
  | caller (c : ι)
  | server

/-- The server has emptied the channel and not yet turned the flag off. -/
def State.emptied (s : State ι) : Prop :=
  s.server = .clearing ∨ s.server = .draining ∧ s.channel = 0

/-- The holder has the token. -/
def State.Holds (s : State ι) : Holder ι → Prop
  | .channel => s.channel = 1
  | .caller c => s.callers c = .writing
  | .server => s.emptied

/-- The flag is on exactly while the token is held, there is one holder at most, and one value in
the channel at most. -/
structure Token (s : State ι) : Prop where
  held : s.pending = true ↔ ∃ h, s.Holds h
  unique : ∀ h h', s.Holds h → s.Holds h' → h = h'
  single : s.channel ≤ 1

/-- The token stays with its holder over a step that changes nothing it depends on. -/
theorem Token.congr {s t : State ι} (h : Token s) (pending : t.pending = s.pending)
    (channel : t.channel = s.channel)
    (callers : ∀ c, t.callers c = .writing ↔ s.callers c = .writing)
    (server : t.emptied ↔ s.emptied) : Token t := by
  have holds : ∀ holder, t.Holds holder ↔ s.Holds holder := by
    intro holder
    cases holder with
    | channel => simp only [State.Holds, channel]
    | caller c => exact callers c
    | server => exact server
  exact {
    held := by simp only [pending, h.held, holds]
    unique := fun _ _ hh hh' => h.unique _ _ ((holds _).mp hh) ((holds _).mp hh')
    single := channel ▸ h.single }

/-- The token after a step, when its holder is known. -/
theorem Token.of_holder {t : State ι} (holder : Holder ι) (pending : t.pending = true)
    (held : ∀ h, t.Holds h ↔ h = holder) (single : t.channel ≤ 1) : Token t where
  held := by simp only [pending, held, exists_eq]
  unique _ _ hh hh' := ((held _).mp hh).trans ((held _).mp hh').symm
  single := single

variable [DecidableEq ι]

/-- A caller that goes from one place to another, neither of them before its write. -/
theorem goto_writing (s : State ι) {c : ι} {phase : Phase} (before : s.callers c ≠ .writing)
    (onward : phase ≠ .writing) (c' : ι) :
    (s.goto c phase).callers c' = .writing ↔ s.callers c' = .writing := by
  by_cases hc : c' = c
  · subst hc
    simp only [State.goto, Function.update_self, onward, before]
  · simp only [State.goto, Function.update_of_ne hc]

/-- **Every step keeps the token**: it hands it on, makes it with the flag or gives it up with
the flag. -/
theorem token_step {room : Nat} {s t : State ι} (h : Token s) (step : Step room s t)
    (pos : 0 < room) : Token t := by
  cases step with
  | request c away =>
    exact h.congr rfl rfl (goto_writing s (by rw [away]; decide) (by decide)) Iff.rfl
  | rely c claiming on =>
    exact h.congr rfl rfl (goto_writing s (by rw [claiming]; decide) (by decide)) Iff.rfl
  | claim c claiming off =>
    have free : ∀ holder, ¬s.Holds holder := fun holder hh => by
      rw [h.held.mpr ⟨holder, hh⟩] at off
      cases off
    refine Token.of_holder (.caller c) rfl (fun holder => ?_) h.single
    cases holder with
    | channel => exact ⟨fun hh => (free .channel hh).elim, fun hh => by cases hh⟩
    | caller c' =>
      by_cases hc : c' = c
      · subst hc
        simp only [State.Holds, State.goto, Function.update_self]
      · simp only [State.Holds, State.goto, Function.update_of_ne hc, Holder.caller.injEq, hc,
          iff_false]
        exact free (.caller c')
    | server => exact ⟨fun hh => (free .server hh).elim, fun hh => by cases hh⟩
  | write c writing hroom =>
    have mine : s.Holds (.caller c) := writing
    have empty : s.channel = 0 := by
      have hne : s.channel ≠ 1 := fun h1 => by cases h.unique .channel _ h1 mine
      have := h.single
      omega
    refine Token.of_holder .channel (h.held.mpr ⟨_, mine⟩) (fun holder => ?_) (by
      show s.channel + 1 ≤ 1
      omega)
    cases holder with
    | channel => exact ⟨fun _ => rfl, fun _ => by show s.channel + 1 = 1; omega⟩
    | caller c' =>
      refine ⟨fun hh => ?_, fun hh => by cases hh⟩
      by_cases hc : c' = c
      · subst hc
        simp [State.Holds, State.goto] at hh
      · simp only [State.Holds, State.goto, Function.update_of_ne hc] at hh
        exact absurd (Holder.caller.inj (h.unique (.caller c') _ hh mine)) hc
    | server =>
      refine ⟨fun hh => ?_, fun hh => by cases hh⟩
      have hs : s.Holds .server := by
        rcases hh with hh | ⟨-, hh⟩
        · exact .inl hh
        · cases hh
      cases h.unique _ _ hs mine
  | full c writing hroom =>
    have := h.single
    have full : s.Holds .channel := by show s.channel = 1; omega
    cases h.unique _ (.caller c) full writing
  | wake away nonempty =>
    exact h.congr rfl rfl (fun _ => .rfl) (by
      simp only [State.emptied, away, reduceCtorEq, false_and, or_self, false_or, true_and,
        iff_false]
      omega)
  | arrive away =>
    exact h.congr rfl rfl (fun _ => .rfl) (by
      simp only [State.emptied, away, reduceCtorEq, false_and, or_self])
  | read k draining nonempty hk =>
    have one : s.channel = 1 := Nat.le_antisymm h.single nonempty
    have mine : s.Holds .channel := one
    refine Token.of_holder .server (h.held.mpr ⟨_, mine⟩) (fun holder => ?_) (by
      show s.channel - k ≤ 1
      omega)
    cases holder with
    | channel =>
      refine ⟨fun hh => ?_, fun hh => by cases hh⟩
      have : s.channel - k = 1 := hh
      omega
    | caller c =>
      refine ⟨fun hh => ?_, fun hh => by cases hh⟩
      cases h.unique (.caller c) _ hh mine
    | server =>
      refine ⟨fun _ => rfl, fun _ => .inr ⟨draining, ?_⟩⟩
      show s.channel - k = 0
      omega
  | drained draining empty =>
    exact h.congr rfl rfl (fun _ => .rfl) (by simp [State.emptied, draining, empty])
  | clear clearing =>
    have mine : s.Holds .server := .inl clearing
    have free : ∀ holder,
        ¬({ s with pending := false, server := .ready } : State ι).Holds holder := by
      intro holder hh
      cases holder with
      | channel => cases h.unique .channel _ hh mine
      | caller c => cases h.unique (.caller c) _ hh mine
      | server => rcases hh with hh | ⟨hh, -⟩ <;> cases hh
    exact {
      held := ⟨fun on => (by cases on), fun ⟨holder, hh⟩ => (free holder hh).elim⟩
      unique := fun _ _ hh => (free _ hh).elim
      single := h.single }

omit [DecidableEq ι] in
/-- So does the start of a round. -/
theorem token_serve {s t : State ι} (h : Token s) (serve : Serve s t) : Token t := by
  obtain ⟨ready, rfl⟩ := serve
  exact h.congr rfl rfl (fun _ => .rfl) (by
    simp only [State.emptied, ready, reduceCtorEq, false_and, or_self])

/-! ## What the server owes -/

/-- Someone has asked for a round of work that has not started: a value is in the channel, a
caller is in its call, or the server is on its way. -/
def Owed (s : State ι) : Prop :=
  0 < s.channel ∨ (∃ c, s.callers c ≠ .away) ∨ s.server ≠ .away

/-- A request makes the server owe a round. -/
theorem owed_goto (s : State ι) (c : ι) {phase : Phase} (h : phase ≠ .away) :
    Owed (s.goto c phase) :=
  .inr (.inl ⟨c, by simpa only [State.goto, Function.update_self] using h⟩)

/-- **A request is never dropped**: after every step but the start of a round, the server owes
one. A caller that leaves has written, or relies on the token's holder. -/
theorem step_owed {room : Nat} {s t : State ι} (h : Token s) (step : Step room s t)
    (pos : 0 < room) : Owed t := by
  have leave : ∀ (c : ι) (t : State ι), t.channel = s.channel → t.server = s.server →
      t.callers = Function.update s.callers c .away →
      (0 < s.channel ∨ (∃ c', c' ≠ c ∧ s.callers c' ≠ .away) ∨ s.server ≠ .away) → Owed t := by
    rintro c t hc hs hcs (ho | ⟨c', hne, ho⟩ | ho)
    · exact .inl (hc ▸ ho)
    · exact .inr (.inl ⟨c', by rwa [hcs, Function.update_of_ne hne]⟩)
    · exact .inr (.inr (hs ▸ ho))
  cases step with
  | request c away => exact owed_goto s c (by decide)
  | rely c claiming on =>
    refine leave c _ rfl rfl rfl ?_
    obtain ⟨holder, hh⟩ := h.held.mp on
    cases holder with
    | channel => exact .inl (by have : s.channel = 1 := hh; omega)
    | caller c' =>
      refine .inr (.inl ⟨c', ?_, ?_⟩)
      · rintro rfl
        rw [show s.callers c' = .writing from hh] at claiming
        cases claiming
      · rw [show s.callers c' = .writing from hh]
        decide
    | server =>
      refine .inr (.inr ?_)
      rcases hh with hh | ⟨hh, -⟩ <;> rw [hh] <;> decide
  | claim c claiming off => exact owed_goto _ c (by decide)
  | write c writing hroom => exact .inl (Nat.succ_pos _)
  | full c writing hroom => exact .inl (Nat.lt_of_lt_of_le pos hroom)
  | wake away nonempty => exact .inr (.inr (by simp))
  | arrive away => exact .inr (.inr (by simp))
  | read k draining nonempty hk => exact .inr (.inr (by simp [draining]))
  | drained draining empty => exact .inr (.inr (by simp))
  | clear clearing => exact .inr (.inr (by simp))

end WakeSignal
