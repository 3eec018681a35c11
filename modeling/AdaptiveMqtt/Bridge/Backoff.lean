import AdaptiveMqtt.Lib.Word

/-!
# The backoff of a bridge

`rand_between`, `bridge__backoff_step` and `bridge__backoff_reset` of `src/bridge.c`, with the
checks of `Lib.CInt` on every operation. A step is well defined exactly when the draw is not
`INT_MIN`, which has no `abs`, and three times the timeout is an `int`.
-/

namespace AdaptiveMqtt.Bridge

open Lib

/-- `struct mosquitto__bridge`, as far as the backoff uses it. -/
structure Backoff where
  restartTimeout : Int
  backoffBase : Int
  backoffCap : Int
  deriving DecidableEq, Repr

def randBetween (r : BitVec 32) (low high : Int) : Except CInt.Fault Int := do
  let a ← CInt.abs r.toInt
  let width ← CInt.sub high low
  let offset ← CInt.rem a width
  CInt.add offset low

def bridgeBackoffStep (r : BitVec 32) (bridge : Backoff) : Except CInt.Fault Backoff :=
  if bridge.backoffCap ≠ 0 then do
    let high ← CInt.mul bridge.restartTimeout 3
    let timeout ← randBetween r bridge.backoffBase high
    pure { bridge with
      restartTimeout := if timeout > bridge.backoffCap then bridge.backoffCap else timeout }
  else pure bridge

def bridgeBackoffReset (bridge : Backoff) : Backoff :=
  if bridge.backoffCap ≠ 0 then { bridge with restartTimeout := bridge.backoffBase } else bridge

inductive BackoffCall where
  | step (r : BitVec 32)
  | reset

def BackoffCall.exec (bridge : Backoff) : BackoffCall → Except CInt.Fault Backoff
  | step r => bridgeBackoffStep r bridge
  | reset => .ok (bridgeBackoffReset bridge)

/-- Calls one after the other, until one is undefined. -/
def backoffRun : List BackoffCall → Backoff → Except CInt.Fault Backoff
  | [], bridge => .ok bridge
  | call :: calls, bridge => call.exec bridge >>= backoffRun calls

/-- The configuration is accepted and the timeout is in its range. -/
structure InRange (bridge : Backoff) : Prop where
  base : 1 ≤ bridge.backoffBase
  low : bridge.backoffBase ≤ bridge.restartTimeout
  high : bridge.restartTimeout ≤ bridge.backoffCap
  cap : CInt.Fits bridge.backoffCap

/-- What a step needs. -/
def BackoffCall.Defined (bridge : Backoff) : BackoffCall → Prop
  | step r => r ≠ BitVec.intMin 32 ∧ CInt.Fits (bridge.restartTimeout * 3)
  | reset => True

instance (bridge : Backoff) : ∀ call : BackoffCall, Decidable (call.Defined bridge)
  | .step _ => inferInstanceAs (Decidable (_ ∧ _))
  | .reset => inferInstanceAs (Decidable True)

/-- Every call of a run is defined when it is its turn. -/
def allDefined : List BackoffCall → Backoff → Bool
  | [], _ => true
  | call :: calls, bridge => call.Defined bridge && (call.exec bridge).toOption.all (allDefined calls)

section Backoff

variable {bridge bridge' : Backoff} {call : BackoffCall} {calls : List BackoffCall} {r : BitVec 32}

theorem toInt_abs (r : BitVec 32) :
    CInt.Fits (if r.toInt < 0 then -r.toInt else r.toInt) ↔ r ≠ BitVec.intMin 32 := by
  have hr := r.toInt_lt
  have hr' := r.le_toInt
  have hmin : r = BitVec.intMin 32 ↔ r.toInt = -2 ^ 31 := by
    rw [← BitVec.toInt_inj]
    exact Iff.rfl
  rw [Ne, hmin]
  unfold CInt.Fits
  split <;> omega

/-- The draw stays between its bounds. -/
theorem randBetween_eq {low high : Int} (hlow : 1 ≤ low) (hlt : low < high) (hhigh : CInt.Fits high)
    (hr : r ≠ BitVec.intMin 32) :
    ∃ x, randBetween r low high = .ok x ∧ low ≤ x ∧ x < high := by
  have habs := (toInt_abs r).mpr hr
  have hpos : 0 ≤ (if r.toInt < 0 then -r.toInt else r.toInt) := by split <;> omega
  generalize hx : (if r.toInt < 0 then -r.toInt else r.toInt) = a at habs hpos
  have hmod : 0 ≤ a.tmod (high - low) ∧ a.tmod (high - low) < high - low := by
    rw [Int.tmod_eq_emod_of_nonneg hpos]
    exact ⟨Int.emod_nonneg _ (by omega), Int.emod_lt_of_pos _ (by omega)⟩
  have hfits : ∀ y, 0 ≤ y → y < high → CInt.ret y = .ok y := by
    intro y h₀ h₁
    obtain ⟨-, hhi⟩ := hhigh
    exact CInt.ret_of_fits ⟨by omega, by omega⟩
  refine ⟨a.tmod (high - low) + low, ?_, by omega, by omega⟩
  unfold randBetween CInt.abs CInt.sub CInt.rem CInt.add
  rw [hx, CInt.ret_of_fits habs, hfits (high - low) (by omega) (by omega)]
  simp only [bind, Except.bind]
  rw [if_neg (by omega), hfits _ hmod.1 (by omega)]
  exact hfits _ (by omega) (by omega)

theorem inRange_step (h : InRange bridge) (hr : r ≠ BitVec.intMin 32)
    (hthree : CInt.Fits (bridge.restartTimeout * 3)) :
    ∃ bridge', bridgeBackoffStep r bridge = .ok bridge' ∧ InRange bridge' ∧
      bridge'.backoffBase = bridge.backoffBase ∧ bridge'.backoffCap = bridge.backoffCap := by
  obtain ⟨hbase, hlow, hhigh, hcap⟩ := h
  obtain ⟨x, hx, hx₀, -⟩ := @randBetween_eq r bridge.backoffBase (bridge.restartTimeout * 3) hbase
    (by omega) hthree hr
  refine ⟨{ bridge with restartTimeout := if x > bridge.backoffCap then bridge.backoffCap else x },
    ?_, ⟨hbase, ?_, ?_, hcap⟩, rfl, rfl⟩
  · unfold bridgeBackoffStep CInt.mul
    rw [if_pos (by omega), CInt.ret_of_fits hthree]
    simp only [bind, Except.bind]
    rw [hx]
    rfl
  · show bridge.backoffBase ≤ if x > bridge.backoffCap then bridge.backoffCap else x
    split <;> omega
  · show (if x > bridge.backoffCap then bridge.backoffCap else x) ≤ bridge.backoffCap
    split <;> omega

theorem step_undefined (h : InRange bridge)
    (hnot : ¬ (r ≠ BitVec.intMin 32 ∧ CInt.Fits (bridge.restartTimeout * 3))) :
    bridgeBackoffStep r bridge = .error .overflow := by
  obtain ⟨hbase, hlow, hhigh, -⟩ := h
  unfold bridgeBackoffStep CInt.mul
  rw [if_pos (by omega)]
  by_cases hthree : CInt.Fits (bridge.restartTimeout * 3)
  · have habs := mt (toInt_abs r).mp fun hr => hnot ⟨hr, hthree⟩
    rw [CInt.ret_of_fits hthree]
    simp only [bind, Except.bind]
    unfold randBetween CInt.abs
    rw [CInt.ret_of_not_fits habs]
    rfl
  · rw [CInt.ret_of_not_fits hthree]
    rfl

/-- A call is defined or an overflow. -/
theorem exec_cases (h : InRange bridge) :
    (call.Defined bridge ∧ ∃ bridge', call.exec bridge = .ok bridge' ∧ InRange bridge' ∧
      bridge'.backoffBase = bridge.backoffBase ∧ bridge'.backoffCap = bridge.backoffCap) ∨
    (¬ call.Defined bridge ∧ call.exec bridge = .error .overflow) := by
  cases call with
  | step r =>
    by_cases hdef : BackoffCall.Defined bridge (.step r)
    · exact .inl ⟨hdef, inRange_step h hdef.1 hdef.2⟩
    · exact .inr ⟨hdef, step_undefined h hdef⟩
  | reset =>
    obtain ⟨hbase, hlow, hhigh, hcap⟩ := h
    have hreset : bridgeBackoffReset bridge = { bridge with restartTimeout := bridge.backoffBase } :=
      if_pos (by omega)
    exact .inl ⟨trivial, _, congrArg Except.ok hreset, ⟨hbase, Int.le_refl _,
      Int.le_trans hlow hhigh, hcap⟩, rfl, rfl⟩

theorem inRange_run (h : InRange bridge) (hrun : backoffRun calls bridge = .ok bridge') :
    InRange bridge' ∧ bridge'.backoffBase = bridge.backoffBase ∧
      bridge'.backoffCap = bridge.backoffCap := by
  induction calls generalizing bridge with
  | nil =>
    cases hrun
    exact ⟨h, rfl, rfl⟩
  | cons call calls ih =>
    unfold backoffRun at hrun
    rcases @exec_cases bridge call h with ⟨-, next, hexec, hnext, hbase, hcap⟩ | ⟨-, hexec⟩
    · rw [hexec] at hrun
      obtain ⟨hin, hbase', hcap'⟩ := ih hnext hrun
      exact ⟨hin, hbase'.trans hbase, hcap'.trans hcap⟩
    · rw [hexec] at hrun
      cases hrun

/-- A run comes to its end exactly when its calls are defined. -/
theorem backoffRun_ok_iff (h : InRange bridge) :
    (∃ bridge', backoffRun calls bridge = .ok bridge') ↔ allDefined calls bridge = true := by
  induction calls generalizing bridge with
  | nil => exact ⟨fun _ => rfl, fun _ => ⟨bridge, rfl⟩⟩
  | cons call calls ih =>
    unfold backoffRun allDefined
    rcases @exec_cases bridge call h with ⟨hdef, next, hexec, hnext, -⟩ | ⟨hnot, hexec⟩
    · rw [hexec, decide_eq_true hdef, Bool.true_and]
      exact ih hnext
    · rw [hexec, decide_eq_false hnot, Bool.false_and]
      exact ⟨fun ⟨_, hrun⟩ => (nomatch hrun), fun hfalse => (nomatch hfalse)⟩

/-- **The backoff stays in range** for exactly the runs in which every step has a draw with an
`abs` and a timeout that can be tripled. -/
theorem backoff_in_range_iff {base cap : Int} (hbase : 1 ≤ base) (hle : base ≤ cap)
    (hcap : CInt.Fits cap) (calls : List BackoffCall) :
    (∃ bridge', backoffRun calls ⟨base, base, cap⟩ = .ok bridge' ∧
      base ≤ bridge'.restartTimeout ∧ bridge'.restartTimeout ≤ cap) ↔
      allDefined calls ⟨base, base, cap⟩ = true := by
  have hstart : InRange ⟨base, base, cap⟩ := ⟨hbase, Int.le_refl _, hle, hcap⟩
  rw [← backoffRun_ok_iff hstart]
  constructor
  · rintro ⟨bridge', hrun, -⟩
    exact ⟨bridge', hrun⟩
  · rintro ⟨bridge', hrun⟩
    obtain ⟨hin, hb, hc⟩ := inRange_run hstart hrun
    have hlow := hin.low
    have hhigh := hin.high
    rw [hb] at hlow
    rw [hc] at hhigh
    exact ⟨bridge', hrun, hlow, hhigh⟩

/-- The defaults of the configuration, with a reset between two steps. -/
theorem backoff_in_range_default :
    ∃ bridge', backoffRun [.step 7, .reset, .step 123] ⟨5, 5, 30⟩ = .ok bridge' ∧
      5 ≤ bridge'.restartTimeout ∧ bridge'.restartTimeout ≤ 30 :=
  (backoff_in_range_iff (by decide) (by decide) (by decide) _).mpr (by decide)

/-- **A step overflows**: with the defaults when the draw is `INT_MIN`, and with a cap of 10⁹
whatever the draw is. -/
theorem backoff_overflows :
    backoffRun [.step (BitVec.intMin 32)] ⟨5, 5, 30⟩ = .error .overflow ∧
      backoffRun [.step 0] ⟨1000000000, 1000000000, 1000000000⟩ = .error .overflow := by
  decide

end Backoff

end AdaptiveMqtt.Bridge
