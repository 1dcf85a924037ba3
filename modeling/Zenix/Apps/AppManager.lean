import Mathlib.Logic.Function.Basic
import Zenix.Proc.ProcessTable

/-!
# The app manager (kernel/apps/app_manager.c)

Apps are entries of the array `apps`, of which the first `app_count` are in use. An
app refers to its process by pid. `Apps` holds the statics of the file together with
the processes.
-/

namespace Zenix
open ByteMemory

/-- `app_type_t`. C allows any other number. -/
inductive AppType where
  | calculator
  | textEditor
  | fileBrowser
  | terminal
  | other (code : Nat)
deriving DecidableEq, Repr

/-- `app_t`. The flag `active` is 0 or 1. `created` is history: the number of the
process that `app_launch` created for the app. -/
structure App where
  type : AppType
  pid : Word
  active : Bool
  initFunc : Word
  updateFunc : Word
  cleanupFunc : Word
  created : Nat

structure Apps where
  run : TableRun
  apps : Int → App
  appCount : Int

def MAX_APPS : Int := 16

/-- The addresses that `app_launch` stores and passes on. -/
structure AppSymbols where
  calculatorName : Word
  calculatorProcessEntry : Word
  startCalculatorApp : Word
  updateCalculatorApp : Word

def Apps.setApp (s : Apps) (i : Int) (a : App) : Apps :=
  { s with apps := Function.update s.apps i a }

/-- `for (int i = 0; i < n; i++)` over an array, changing one entry after the other. -/
def forEach {α : Type} (n : Int) (f : α → α) (xs : Int → α) : Int → α :=
  (List.range n.toNat).foldl (fun xs (i : Nat) => Function.update xs i (f (xs i))) xs

def appManagerInit (s : Apps) : Apps :=
  { s with
    apps := forEach MAX_APPS (fun a => { a with active := false, pid := 0#32 }) s.apps
    appCount := 0 }

/-- "Check if app already running". -/
def findRunning (type : AppType) (s : Apps) : Option Nat :=
  (List.range s.appCount.toNat).find? fun i => (s.apps i).active ∧ (s.apps i).type = type

/-- Give the entry up again. -/
def dropApp (appId : Int) (s : Apps) : Int × Apps :=
  (-1, { s.setApp appId { s.apps appId with active := false } with appCount := s.appCount - 1 })

/-- `app_launch`; `ticks` is what `timer_get_ticks` returns in `process_create`. -/
def appLaunch (sym : AppSymbols) (type : AppType) (ticks : Word) (s : Apps) : Option (Int × Apps) :=
  if MAX_APPS ≤ s.appCount then some (-1, s)
  else
    match findRunning type s with
    | some i => some (i, s)
    | none =>
      let appId := s.appCount
      let s := { s with appCount := s.appCount + 1 }
      let s := s.setApp appId { s.apps appId with type := type, active := true }
      match type with
      | .calculator =>
        let s := s.setApp appId
          { s.apps appId with
            initFunc := sym.startCalculatorApp
            updateFunc := sym.updateCalculatorApp
            cleanupFunc := 0#32 }
        (s.run.create sym.calculatorName sym.calculatorProcessEntry ticks).map fun (proc, run) =>
          let number := s.run.pids.length
          let s := { s with run := run }
          if proc ≠ 0#32 then
            (appId, s.setApp appId
              { s.apps appId with pid := procPid run.procs.heap.mem proc, created := number })
          else dropApp appId s
      | .textEditor => some (dropApp appId s)
      | .fileBrowser => some (dropApp appId s)
      | .terminal => some (dropApp appId s)
      | .other _ => some (dropApp appId s)

/-- The first entry of the process table with the pid. -/
def findPid (pid : Word) (s : Procs) : Option (Fin 64) :=
  (List.finRange 64).find? fun i =>
    s.processTable i ≠ 0#32 ∧ procPid s.heap.mem (s.processTable i) = pid

/-- `app_close`. What a cleanup function does is not modelled. -/
def appClose (appId : Int) (s : Apps) : Option Apps :=
  if appId < 0 ∨ s.appCount ≤ appId then some s
  else if (s.apps appId).active = false then some s
  else if (s.apps appId).cleanupFunc ≠ 0#32 then none
  else
    (match findPid (s.apps appId).pid s.run.procs with
      | some i => s.run.terminate (s.run.procs.processTable i)
      | none => some s.run).map fun run =>
        { s.setApp appId { s.apps appId with active := false } with run := run }

/-- "Check if process still exists". -/
def processExists (pid : Word) (s : Procs) : Bool :=
  (List.finRange 64).any fun j =>
    s.processTable j ≠ 0#32 ∧ procPid s.heap.mem (s.processTable j) = pid ∧
      procState s.heap.mem (s.processTable j) ≠ ProcessState.terminated.code

/-- "Clean up terminated apps", for one app. -/
def cleanUp (s : Procs) (a : App) : App :=
  if a.active then
    if processExists a.pid s then a else { a with active := false }
  else a

def appManagerUpdate (s : Apps) : Apps :=
  { s with apps := forEach s.appCount (cleanUp s.run.procs) s.apps }

/-- The loop changes the first `n` entries, each of them once. -/
theorem forEach_apply {α : Type} (n : Int) (f : α → α) (xs : Int → α) (j : Int) :
    forEach n f xs j = if 0 ≤ j ∧ j < n then f (xs j) else xs j := by
  have hloop : ∀ n : Nat, (List.range n).foldl
      (fun xs (i : Nat) => Function.update xs (i : Int) (f (xs i))) xs j =
        if 0 ≤ j ∧ j < n then f (xs j) else xs j := by
    intro n
    induction n with
    | zero => exact (if_neg (by omega)).symm
    | succ n ih =>
      rw [List.range_succ, List.foldl_append, List.foldl_cons, List.foldl_nil]
      cases Decidable.em (j = n) with
      | inl heq =>
        subst heq
        rw [Function.update_self, ih, if_neg (by omega), if_pos (by omega)]
      | inr hne =>
        rw [Function.update_of_ne hne, ih]
        exact if_congr (by omega) rfl rfl
  rw [forEach, hloop]
  exact if_congr (by omega) rfl rfl

theorem appManagerInit_apps (s : Apps) (i : Int) : (appManagerInit s).apps i =
    if 0 ≤ i ∧ i < MAX_APPS then { s.apps i with active := false, pid := 0#32 } else s.apps i :=
  forEach_apply MAX_APPS (fun a : App => { a with active := false, pid := 0#32 }) s.apps i

theorem appManagerUpdate_apps (s : Apps) (i : Int) : (appManagerUpdate s).apps i =
    if 0 ≤ i ∧ i < s.appCount then cleanUp s.run.procs (s.apps i) else s.apps i :=
  forEach_apply s.appCount (cleanUp s.run.procs) s.apps i

theorem cleanUp_cases (s : Procs) (a : App) : cleanUp s a = a ∨ (cleanUp s a).active = false := by
  unfold cleanUp
  split
  · split
    · exact Or.inl rfl
    · exact Or.inr rfl
  · exact Or.inl rfl

end Zenix
