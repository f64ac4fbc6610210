import Mathlib
import TaurusNode.Lib.PartialRun

/-!
# The transaction timer

A model of `platform_timer` (libraries/chain/platform_timer_posix.cpp and platform_timer.hpp): a
POSIX timer that raises `SIGRTMIN` at the time it is armed for, whose handler, on any thread, sets
`expired` and then calls the expiration callback unless `set_expiration_callback` holds the
callback flag. The owner's calls, the clock, the timer's expiry and the handler are the events of a
trace; a run of the timer is the part of a trace from a `start(tp)` to the next `start` or `stop`.

* The flag is held exactly while the owner is inside `set_expiration_callback`
  (`Reachable.flagHeld`).
* A run begun with no signal pending ends only at or after `tp` (`InRun.tp_le_of_expired`), and
  while no `set_expiration_callback` is made, the run ends only with a call of the callback
  registered (`CallsBack.invoked_of_expired`).
* But `stop` disarms the timer without taking back a signal it has raised: a signal left over from
  an earlier run ends a later one before its `tp` (`stale_signal_ends_run`), and a signal handled
  while `set_expiration_callback` holds the flag ends a run with no call of the callback, though one
  is registered throughout (`callback_skipped`).

Modelled as: time points are microsecond counts; each owner call and each run of the handler is one
step, the handler's steps interleaving with nothing but the flag, which `set_expiration_callback`
holds over two steps; `timer_settime` does not fail. A POSIX timer queues at most one signal, so a
signal is pending or not.
-/

namespace Eosio.Chain

/-- `fc::time_point::maximum()`, in microseconds. -/
def maximumTime : ℕ := 2 ^ 63 - 1

/-- The timer and its signal, with the clock. `Cb` is a callback with its data. -/
structure TimerState (Cb : Type) where
  now : ℕ
  /-- the time the POSIX timer is armed for -/
  armed : Option ℕ
  /-- a `SIGRTMIN` raised and not yet handled -/
  pending : Bool
  expired : Bool
  /-- `_callback_variables_busy` -/
  busy : Bool
  /-- `_expiration_callback` with its data -/
  callback : Option Cb
  /-- the owner inside `set_expiration_callback(func)`, with `func` -/
  setting : Option (Option Cb)
  /-- the calls of the callback, with their times -/
  invocations : List (Cb × ℕ)
deriving DecidableEq, Repr

/-- The events of a trace. -/
inductive TimerEvent (Cb : Type)
  | start (tp : ℕ)
  | stop
  /-- `set_expiration_callback(func)` takes the flag -/
  | setCallbackBegin (func : Option Cb)
  /-- `set_expiration_callback` checks, writes, and releases the flag -/
  | setCallbackEnd
  /-- the clock moves on a microsecond -/
  | tick
  /-- the armed time has come: the timer raises its signal -/
  | fire
  /-- `sig_handler` runs -/
  | deliver
deriving DecidableEq, Repr

namespace TimerEvent

variable {Cb : Type}

/-- The events inside a run: neither `start` nor `stop`. -/
def inRun : TimerEvent Cb → Bool
  | .start _ | .stop => false
  | _ => true

/-- The events of the timer's side: the clock, the timer's expiry and the handler. -/
def timerSide : TimerEvent Cb → Bool
  | .tick | .fire | .deliver => true
  | _ => false

end TimerEvent

namespace TimerState

variable {Cb : Type} (s : TimerState Cb)

/-- A timer as constructed at `now`: `expired` is true and nothing is armed. -/
def initial (now : ℕ) : TimerState Cb := ⟨now, none, false, true, false, none, none, []⟩

/-- `start(tp)`: `expired` is cleared and the timer armed for `tp`, unless `tp` is not ahead. -/
def start (tp : ℕ) : TimerState Cb :=
  if tp = maximumTime then { s with expired := false }
  else if tp ≤ s.now then { s with expired := true }
  else { s with expired := false, armed := some tp }

/-- `stop()`: the timer is disarmed, which leaves a raised signal pending. -/
def stop : TimerState Cb :=
  if s.expired then s else { s with armed := none, expired := true }

/-- The owner takes the flag in `set_expiration_callback(func)`. -/
def setCallbackBegin (func : Option Cb) : TimerState Cb :=
  { s with busy := true, setting := some func }

/-- The rest of `set_expiration_callback(func)`: a second callback throws, and either way the
flag is released. -/
def setCallbackEnd (func : Option Cb) : TimerState Cb :=
  if func.isSome && s.callback.isSome then { s with busy := false, setting := none }
  else { s with callback := func, busy := false, setting := none }

/-- `sig_handler`: `expired` is set, then the callback is called if the flag can be taken. -/
def handle : TimerState Cb :=
  let s := { s with pending := false, expired := true }
  if s.busy then s
  else match s.callback with
    | some cb => { s with invocations := s.invocations ++ [(cb, s.now)] }
    | none => s

/-- One event, `none` where it cannot happen: the owner is inside `set_expiration_callback`, or
spins on the flag; the timer is not armed for a time that has come; no signal is pending. -/
def step : TimerEvent Cb → Option (TimerState Cb)
  | .start tp => if s.setting.isNone then some (s.start tp) else none
  | .stop => if s.setting.isNone then some s.stop else none
  | .setCallbackBegin func =>
    if s.setting.isNone && !s.busy then some (s.setCallbackBegin func) else none
  | .setCallbackEnd => s.setting.map s.setCallbackEnd
  | .tick => some { s with now := s.now + 1 }
  | .fire =>
    match s.armed with
    | some t => if t ≤ s.now then some { s with armed := none, pending := true } else none
    | none => none
  | .deliver => if s.pending then some s.handle else none

/-- The state after a trace, `none` if an event of it cannot happen. -/
def run (events : List (TimerEvent Cb)) : Option (TimerState Cb) := events.foldlM step s

/-! ### What each event writes -/

theorem start_eq (tp : ℕ) : s.start tp =
    { s with
      expired := decide (tp ≠ maximumTime ∧ tp ≤ s.now)
      armed := if tp ≠ maximumTime ∧ s.now < tp then some tp else s.armed } := by
  unfold start
  by_cases hmax : tp = maximumTime
  · simp [hmax]
  · by_cases hle : tp ≤ s.now
    · simp [hmax, hle]
    · simp [hmax, hle, Nat.lt_of_not_le hle]

theorem stop_eq : s.stop =
    { s with armed := if s.expired then s.armed else none, expired := true } := by
  obtain ⟨now, armed, pending, expired, busy, callback, setting, invocations⟩ := s
  cases expired <;> rfl

theorem setCallbackEnd_eq (func : Option Cb) : s.setCallbackEnd func =
    { s with
      callback := if func.isSome && s.callback.isSome then s.callback else func
      busy := false
      setting := none } := by
  unfold setCallbackEnd
  split <;> rfl

theorem handle_eq : s.handle =
    { s with
      pending := false
      expired := true
      invocations := if s.busy then s.invocations
        else s.invocations ++ (s.callback.map fun cb => (cb, s.now)).toList } := by
  obtain ⟨now, armed, pending, expired, busy, callback, setting, invocations⟩ := s
  cases busy with
  | true => rfl
  | false => cases callback <;> simp [handle]

/-- What an event can do, by event: the owner's calls, the flag, the clock, the timer's expiry and
the handler each write only their own fields. -/
theorem step_eq_some {e : TimerEvent Cb} {s' : TimerState Cb} (h : s.step e = some s') :
    (∃ tp, e = .start tp ∧ s.setting = none ∧ s' = s.start tp) ∨
    (e = .stop ∧ s.setting = none ∧ s' = s.stop) ∨
    (∃ func, e = .setCallbackBegin func ∧ s.setting = none ∧ s.busy = false ∧
      s' = s.setCallbackBegin func) ∨
    (∃ func, e = .setCallbackEnd ∧ s.setting = some func ∧ s' = s.setCallbackEnd func) ∨
    (e = .tick ∧ s' = { s with now := s.now + 1 }) ∨
    (∃ t, e = .fire ∧ s.armed = some t ∧ t ≤ s.now ∧ s' = { s with armed := none, pending := true }) ∨
    (e = .deliver ∧ s.pending = true ∧ s' = s.handle) := by
  cases e with
  | start tp =>
    simp only [step, Option.isNone_iff_eq_none] at h
    split at h
    · exact .inl ⟨tp, rfl, ‹_›, (Option.some.inj h).symm⟩
    · cases h
  | stop =>
    simp only [step, Option.isNone_iff_eq_none] at h
    split at h
    · exact .inr (.inl ⟨rfl, ‹_›, (Option.some.inj h).symm⟩)
    · cases h
  | setCallbackBegin func =>
    simp only [step, Bool.and_eq_true, Option.isNone_iff_eq_none, Bool.not_eq_eq_eq_not,
      Bool.not_true] at h
    split at h
    · next hc => exact .inr (.inr (.inl ⟨func, rfl, hc.1, hc.2, (Option.some.inj h).symm⟩))
    · cases h
  | setCallbackEnd =>
    simp only [step] at h
    obtain ⟨func, hfunc, rfl⟩ := Option.map_eq_some_iff.mp h
    exact .inr (.inr (.inr (.inl ⟨func, rfl, hfunc, rfl⟩)))
  | tick => exact .inr (.inr (.inr (.inr (.inl ⟨rfl, (Option.some.inj h).symm⟩))))
  | fire =>
    simp only [step] at h
    split at h
    · next t ht =>
      split at h
      · exact .inr (.inr (.inr (.inr (.inr (.inl ⟨t, rfl, ht, ‹_›, (Option.some.inj h).symm⟩)))))
      · cases h
    · cases h
  | deliver =>
    simp only [step] at h
    split at h
    · exact .inr (.inr (.inr (.inr (.inr (.inr ⟨rfl, ‹_›, (Option.some.inj h).symm⟩)))))
    · cases h

/-! ### The callback flag -/

/-- The flag is held exactly while the owner is inside `set_expiration_callback`. -/
def FlagHeld : Prop := s.busy = s.setting.isSome

/-- A state some trace from construction reaches. -/
def Reachable : Prop := ∃ now events, (initial now).run events = some s

variable {s}

theorem FlagHeld.step (h : s.FlagHeld) {e : TimerEvent Cb} {s' : TimerState Cb}
    (hs : s.step e = some s') : s'.FlagHeld := by
  rcases s.step_eq_some hs with ⟨tp, -, -, rfl⟩ | ⟨-, -, rfl⟩ | ⟨func, -, -, -, rfl⟩ |
    ⟨func, -, -, rfl⟩ | ⟨-, rfl⟩ | ⟨t, -, -, -, rfl⟩ | ⟨-, -, rfl⟩
  · rw [start_eq]
    exact h
  · rw [stop_eq]
    exact h
  · rfl
  · rw [setCallbackEnd_eq]
    rfl
  · exact h
  · exact h
  · rw [handle_eq]
    exact h

/-- **The flag is held exactly while the owner is inside `set_expiration_callback`**, in every
reachable state: the handler takes and releases it within its one step. -/
theorem Reachable.flagHeld (h : s.Reachable) : s.FlagHeld := by
  obtain ⟨now, events, hrun⟩ := h
  have hinit : (initial now : TimerState Cb).FlagHeld := rfl
  exact PartialRun.foldlM_invariant FlagHeld (fun _ hs _ _ _ hstep => hs.step hstep) hinit hrun

/-! ### One run -/

/-- The state of a run begun by `start(tp)` with no signal pending: the timer is armed for `tp`
or for nothing, and neither a pending signal nor `expired` comes before `tp`. -/
structure InRun (tp : ℕ) : Prop where
  armed : s.armed = none ∨ s.armed = some tp
  pending : s.pending = true → tp ≤ s.now
  expired : s.expired = true → tp ≤ s.now

/-- A run begun at `now < tp` with no signal pending starts in `InRun`. -/
theorem InRun.start {tp : ℕ} (hmax : tp ≠ maximumTime) (hnow : s.now < tp)
    (hpending : s.pending = false) : (s.start tp).InRun tp := by
  rw [start_eq]
  refine ⟨.inr (if_pos ⟨hmax, hnow⟩), fun h => ?_, fun h => ?_⟩
  · rw [hpending] at h
    cases h
  · simp only [decide_eq_true_eq] at h
    omega

/-- Each event inside the run keeps `InRun`: the timer raises its signal only once `tp` has come,
and the handler sets `expired` only for a signal. -/
theorem InRun.step {tp : ℕ} (h : s.InRun tp) {e : TimerEvent Cb} (he : e.inRun = true)
    {s' : TimerState Cb} (hs : s.step e = some s') : s'.InRun tp := by
  rcases s.step_eq_some hs with ⟨t, rfl, -, -⟩ | ⟨rfl, -, -⟩ | ⟨func, -, -, -, rfl⟩ |
    ⟨func, -, -, rfl⟩ | ⟨-, rfl⟩ | ⟨t, -, ht, hle, rfl⟩ | ⟨-, hpend, rfl⟩
  · cases he
  · cases he
  · exact ⟨h.armed, h.pending, h.expired⟩
  · rw [setCallbackEnd_eq]
    exact ⟨h.armed, h.pending, h.expired⟩
  · exact ⟨h.armed, fun hp => Nat.le_succ_of_le (h.pending hp),
      fun hx => Nat.le_succ_of_le (h.expired hx)⟩
  · -- the armed time is `tp`, and it has come
    have htp : t = tp := by
      rcases h.armed with ha | ha <;> rw [ht] at ha <;> cases ha
      rfl
    exact ⟨.inl rfl, fun _ => htp ▸ hle, h.expired⟩
  · rw [handle_eq]
    exact ⟨h.armed, fun hp => absurd hp Bool.false_ne_true, fun _ => h.pending hpend⟩

/-- **A run begun with no signal pending ends only at or after its time**: however the events
inside it interleave, `expired` is set only once `tp` has come. -/
theorem InRun.tp_le_of_expired {tp : ℕ} (hmax : tp ≠ maximumTime) (hnow : s.now < tp)
    (hpending : s.pending = false) (hsetting : s.setting = none) {events : List (TimerEvent Cb)}
    (hevents : ∀ e ∈ events, e.inRun = true) {s' : TimerState Cb}
    (hrun : s.run (.start tp :: events) = some s') (hexp : s'.expired = true) : tp ≤ s'.now := by
  have hfirst : s.step (.start tp) = some (s.start tp) := by
    simp [TimerState.step, hsetting]
  rw [run, List.foldlM_cons, hfirst, Option.bind_eq_bind, Option.bind_some] at hrun
  refine (PartialRun.foldlM_invariant (fun s : TimerState Cb => s.InRun tp)
    (fun _ hs e he _ hstep => hs.step (hevents e he) hstep) (InRun.start hmax hnow hpending)
    hrun).expired hexp

/-- The state of a run with callback `cb` registered and the flag free, the calls of `cb` before
the run being the first `k`: `expired` is set only with a call of `cb` in the run. -/
structure CallsBack (cb : Cb) (k : ℕ) : Prop where
  callback : s.callback = some cb
  free : s.busy = false
  before : k ≤ s.invocations.length
  invoked : s.expired = true → ∃ t, (cb, t) ∈ s.invocations.drop k

theorem CallsBack.start {cb : Cb} {tp : ℕ} (hcb : s.callback = some cb) (hfree : s.busy = false)
    (hnow : s.now < tp) :
    (s.start tp).CallsBack cb s.invocations.length := by
  rw [start_eq]
  refine ⟨hcb, hfree, le_refl _, fun h => ?_⟩
  simp only [decide_eq_true_eq] at h
  omega

/-- Each event of the timer's side keeps `CallsBack`: with the flag free, the handler calls the
callback as it sets `expired`. -/
theorem CallsBack.step {cb : Cb} {k : ℕ} (h : s.CallsBack cb k) {e : TimerEvent Cb}
    (he : e.timerSide = true) {s' : TimerState Cb} (hs : s.step e = some s') :
    s'.CallsBack cb k := by
  rcases s.step_eq_some hs with ⟨t, rfl, -, -⟩ | ⟨rfl, -, -⟩ | ⟨func, rfl, -, -, -⟩ |
    ⟨func, rfl, -, -⟩ | ⟨-, rfl⟩ | ⟨t, -, -, -, rfl⟩ | ⟨-, -, rfl⟩
  · cases he
  · cases he
  · cases he
  · cases he
  · exact ⟨h.callback, h.free, h.before, h.invoked⟩
  · exact ⟨h.callback, h.free, h.before, h.invoked⟩
  · -- the handler takes the free flag and calls `cb` now
    rw [handle_eq]
    refine ⟨h.callback, h.free, ?_, fun _ => ⟨s.now, ?_⟩⟩
    · simp only [h.free, h.callback, Bool.false_eq_true, if_false, List.length_append]
      exact le_trans h.before (Nat.le_add_right _ _)
    · simp only [h.free, h.callback, Bool.false_eq_true, if_false, Option.map_some,
        Option.toList_some]
      rw [List.drop_append_of_le_length h.before]
      exact List.mem_append_right _ (List.mem_singleton_self _)

/-- **While no `set_expiration_callback` is made, a run ends only with a call of the callback**
registered when it began: every handler in it finds the flag free. -/
theorem CallsBack.invoked_of_expired (hreach : s.Reachable) {cb : Cb} {tp : ℕ}
    (hcb : s.callback = some cb) (hsetting : s.setting = none) (hnow : s.now < tp) {events : List (TimerEvent Cb)} (hevents : ∀ e ∈ events, e.timerSide = true)
    {s' : TimerState Cb} (hrun : s.run (.start tp :: events) = some s') (hexp : s'.expired = true) :
    ∃ t, (cb, t) ∈ s'.invocations.drop s.invocations.length := by
  have hfree : s.busy = false := by
    rw [hreach.flagHeld, hsetting]
    rfl
  have hfirst : s.step (.start tp) = some (s.start tp) := by
    simp [TimerState.step, hsetting]
  rw [run, List.foldlM_cons, hfirst, Option.bind_eq_bind, Option.bind_some] at hrun
  exact (PartialRun.foldlM_invariant (fun t : TimerState Cb => t.CallsBack cb s.invocations.length)
    (fun _ hs e he _ hstep => hs.step (hevents e he) hstep)
    (CallsBack.start hcb hfree hnow) hrun).invoked hexp

/-! ### The races -/

/-- An earlier run: armed for `10`, the timer raises its signal at `10`, and the run is stopped
before the signal is handled. -/
def earlierRun : List (TimerEvent Unit) := .start 10 :: List.replicate 10 .tick ++ [.fire, .stop]

/-- **A signal left over from an earlier run ends a later one early**: after `earlierRun` it is
`10`; `start(100)` begins a run, and the handler of the earlier signal sets `expired` at `10`. -/
theorem stale_signal_ends_run :
    ((initial 0 : TimerState Unit).run earlierRun).map (·.now) = some 10 ∧
      (((initial 0 : TimerState Unit).run earlierRun).bind (·.run [.start 100, .deliver])).map
        (fun s => (s.expired, s.now)) = some (true, 10) := by
  decide

/-- Callback `1` registered, then a run armed for `10` whose signal is handled while a second
`set_expiration_callback`, which throws, holds the flag. -/
def busyRun : List (TimerEvent ℕ) :=
  [.setCallbackBegin (some 1), .setCallbackEnd, .start 10] ++ List.replicate 10 .tick ++
    [.fire, .setCallbackBegin (some 2), .deliver, .setCallbackEnd]

/-- **A run can end with no call of the callback registered throughout it**: in `busyRun` the run
ends, callback `1` stays registered, and it is never called. -/
theorem callback_skipped :
    ((initial 0 : TimerState ℕ).run busyRun).map (fun s => (s.expired, s.callback, s.invocations)) =
      some (true, some 1, []) := by
  decide

end TimerState

end Eosio.Chain
