import Zenix.Lib.Memory
import Zenix.Lib.Transition

/-!
# Waiting for the timer (kernel/drivers/timer/pit.c, kernel/syscall/handlers.c)

The kernel has two loops that wait for a number of timer interrupts. `timer_wait` compares
the counter with a deadline, which may have wrapped around; `sys_sleep` compares the time that
has elapsed.

Results:
1. `WaitInv.step`, `WaitInv.run`: how far the counter is when the loop goes on.
2. `timer_wait_iff`: `timer_wait` waits long enough in every run exactly when its deadline does
   not wrap around, and the loop of `sys_sleep` always does.
-/

namespace Zenix
open ByteMemory

/-! ## The loops -/

/-- A call in one of the loops. `polled` says whether the condition has been evaluated since
the last timer interrupt. -/
structure WaitState where
  systemTicks : Word
  polled : Bool
  returned : Bool

inductive WaitEvent where
  | tick
  | poll
deriving DecidableEq

/-- `while (system_ticks < end)`. -/
def timerWaitAgain (start ticks now : Word) : Prop := now < start + ticks

/-- `while ((timer_get_ticks() - start) < ticks_to_wait)`. -/
def sysSleepAgain (start ticks now : Word) : Prop := now - start < ticks

section Steps
variable (again : Word → Prop)

/-- `system_ticks` is incremented at any time, but at most once between two evaluations of the
condition; what `hlt` waits for is left open. -/
inductive WaitStep : WaitState → WaitEvent → WaitState → Prop
  | wait {s : WaitState} : s.returned = false → again s.systemTicks →
      WaitStep s .poll { s with polled := true }
  | done {s : WaitState} : s.returned = false → ¬ again s.systemTicks →
      WaitStep s .poll { s with polled := true, returned := true }
  | tick {s : WaitState} : s.polled = true →
      WaitStep s .tick { s with systemTicks := s.systemTicks + 1#32, polled := false }

/-- The calls that have read `start` from the counter. -/
def waitSystem (start : Word) : TransitionSystem WaitState WaitEvent where
  init := fun s => s = ⟨start, true, false⟩
  step := WaitStep again

/-- No run returns before the counter has been incremented `ticks` times. -/
def WaitsLong (start ticks : Word) : Prop :=
  ∀ s events t, (waitSystem again start).init s → (waitSystem again start).Run s events t →
    t.returned = true → ticks.toNat ≤ events.count .tick

end Steps

/-! ## The invariant -/

/-- After `k` increments. While the loop goes on, `ticks` have not been exceeded, and not even
reached when the condition was evaluated last. -/
structure WaitInv (start ticks : Word) (k : Nat) (s : WaitState) : Prop where
  counter : s.systemTicks = start + BitVec.ofNat 32 k
  waiting : s.returned = false → k ≤ ticks.toNat ∧ (s.polled = true → k < ticks.toNat)
  late : s.returned = true → ticks.toNat ≤ k

/-- The loop goes on as long as `ticks` increments have not occurred. -/
def TellsTime (again : Word → Prop) (start ticks : Word) : Prop :=
  ∀ k ≤ ticks.toNat, again (start + BitVec.ofNat 32 k) ↔ k < ticks.toNat

section Invariant
variable {again : Word → Prop} {start ticks : Word} {s t : WaitState} {k : Nat}

theorem WaitInv.step (hagain : TellsTime again start ticks) (h : WaitInv start ticks k s)
    {e : WaitEvent} (hst : WaitStep again s e t) : WaitInv start ticks (k + [e].count .tick) t := by
  cases hst with
  | wait hgoing hyes =>
    have hle := (h.waiting hgoing).1
    rw [h.counter, hagain k hle] at hyes
    exact ⟨h.counter, fun _ => ⟨hle, fun _ => hyes⟩, h.late⟩
  | done hgoing hno =>
    have hle := (h.waiting hgoing).1
    rw [h.counter, hagain k hle, Nat.not_lt] at hno
    exact ⟨h.counter, nofun, fun _ => hno⟩
  | tick hpolled =>
    refine ⟨?_, fun hgoing => ?_, fun hreturned => Nat.le_succ_of_le (h.late hreturned)⟩
    · rw [h.counter, BitVec.add_assoc]
      exact congrArg (start + ·) (ofNat_add_ofNat k 1)
    · exact ⟨(h.waiting hgoing).2 hpolled, nofun⟩

/-- A run of a loop that tells the time. -/
theorem WaitInv.run (hagain : TellsTime again start ticks) {events : List WaitEvent}
    (hrun : (waitSystem again start).Run s events t) (h : WaitInv start ticks k s) :
    WaitInv start ticks (k + events.count .tick) t := by
  induction hrun generalizing k with
  | nil => exact h
  | @cons s u t e events hst _ ih =>
    have hrest := ih (h.step hagain hst)
    rwa [Nat.add_assoc, ← List.count_append, List.singleton_append] at hrest

theorem TellsTime.waitsLong (hagain : TellsTime again start ticks) :
    WaitsLong again start ticks := by
  rintro s events t rfl hrun hreturned
  rcases Nat.eq_zero_or_pos ticks.toNat with hzero | hpos
  · rw [hzero]
    exact Nat.zero_le _
  · have hinit : WaitInv start ticks 0 ⟨start, true, false⟩ :=
      ⟨(BitVec.add_zero start).symm, fun _ => ⟨Nat.zero_le _, fun _ => hpos⟩, nofun⟩
    have hend := (hinit.run hagain hrun).late hreturned
    rwa [Nat.zero_add] at hend

end Invariant

/-! ## The two conditions -/

/-- A deadline that does not wrap around. -/
theorem timerWait_tellsTime {start ticks : Word} (h : start.toNat + ticks.toNat < 2 ^ 32) :
    TellsTime (timerWaitAgain start ticks) start ticks := by
  intro k hk
  rw [timerWaitAgain, BitVec.lt_def, toNat_add_ofNat (by omega), toNat_add_of_lt h]
  omega

theorem sysSleep_tellsTime (start ticks : Word) :
    TellsTime (sysSleepAgain start ticks) start ticks := by
  intro k hk
  have hlt := ticks.isLt
  rw [sysSleepAgain, BitVec.add_comm, BitVec.add_sub_cancel, BitVec.lt_def,
    toNat_ofNat_of_lt (by omega)]

/-- A deadline that wraps around is over when the condition is evaluated first. -/
theorem timerWait_wraps {start ticks : Word} (h : 2 ^ 32 ≤ start.toNat + ticks.toNat) :
    (waitSystem (timerWaitAgain start ticks) start).Run ⟨start, true, false⟩ [.poll]
      ⟨start, true, true⟩ := by
  have hover : ¬ timerWaitAgain start ticks start := by
    have hlt := ticks.isLt
    have hlt' := start.isLt
    rw [timerWaitAgain, BitVec.lt_def, BitVec.toNat_add]
    omega
  exact .cons (WaitStep.done rfl hover) .nil

/-- `timer_wait` waits for all its interrupts in every run exactly when its deadline does not
wrap around. The loop of `sys_sleep` does so in any case. -/
theorem timer_wait_iff (start ticks : Word) :
    (WaitsLong (timerWaitAgain start ticks) start ticks ↔ start.toNat + ticks.toNat < 2 ^ 32) ∧
      WaitsLong (sysSleepAgain start ticks) start ticks := by
  refine ⟨⟨fun hlong => ?_, fun hfit => (timerWait_tellsTime hfit).waitsLong⟩,
    (sysSleep_tellsTime start ticks).waitsLong⟩
  by_contra hwraps
  have hnone := hlong _ _ _ rfl (timerWait_wraps (Nat.not_lt.mp hwraps)) rfl
  have hzero : ticks.toNat = 0 := Nat.le_zero.mp hnone
  have hstart := start.isLt
  omega

/-- One tick before the counter wraps around, `timer_wait(2)` returns at once. -/
theorem timer_wait_returns_early :
    (waitSystem (timerWaitAgain 0xFFFFFFFF#32 2#32) 0xFFFFFFFF#32).Run ⟨0xFFFFFFFF#32, true, false⟩
        [.poll] ⟨0xFFFFFFFF#32, true, true⟩ ∧
      ¬ WaitsLong (timerWaitAgain 0xFFFFFFFF#32 2#32) 0xFFFFFFFF#32 2#32 := by
  have hwrap : 2 ^ 32 ≤ (0xFFFFFFFF#32).toNat + (2#32).toNat := by decide
  have hrun := timerWait_wraps hwrap
  exact ⟨hrun, fun hlong => absurd (hlong _ _ _ rfl hrun rfl) (by decide)⟩

end Zenix
