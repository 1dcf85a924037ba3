import Zenix.Apps.AppManager

/-!
# Apps and their processes

The app manager followed through every interleaving of its own calls with
`process_create` and `process_terminate`. An app knows its process by pid only; no
pid is given twice, so the pid names the process that `app_launch` has created, for
as long as that lives.

Results:
1. `appLaunch_cases`, `appClose_spec`: what the calls do.
2. `apps_never_kill_foreign`: the entries of the array, and whom `app_close`
   terminates.
3. `app_slots_reusable_iff`: `app_close` does not give its entry back, so
   `app_launch` works only while fewer than `MAX_APPS` entries have been used.
-/

namespace Zenix
open ByteMemory FirstFit

/-! ## Runs -/

inductive AppOp where
  | launch (type : AppType) (ticks : Word)
  | close (appId : Int)
  | update
  | process (op : TableOp)

inductive AppStep (sym : AppSymbols) : Apps → AppOp → Apps → Prop
  | launch {s t : Apps} {type : AppType} {ticks : Word} {ret : Int} :
      appLaunch sym type ticks s = some (ret, t) → AppStep sym s (.launch type ticks) t
  | close {s t : Apps} {appId : Int} : appClose appId s = some t → AppStep sym s (.close appId) t
  | update {s : Apps} : AppStep sym s .update (appManagerUpdate s)
  | process {s : Apps} {op : TableOp} {run : TableRun} : TableStep s.run op run →
      AppStep sym s (.process op) { s with run := run }

/-- `app_manager_init` at any time after `process_init`. -/
def appSystem (sym : AppSymbols) : TransitionSystem Apps AppOp where
  init := fun s => ∃ s₀ : Apps, tableSystem.Reachable s₀.run ∧ s = appManagerInit s₀
  step := AppStep sym

/-! ## The calls -/

section Search
variable {s : Apps} {type : AppType} {p : Procs} {pid : Word}

theorem findRunning_some {i : Nat} (h : findRunning type s = some i) :
    (i : Int) < s.appCount ∧ (s.apps i).active = true ∧ (s.apps i).type = type := by
  have hfound := List.find?_some h
  rw [decide_eq_true_eq] at hfound
  have hrange := List.mem_range.mp (List.mem_of_find?_eq_some h)
  exact ⟨by omega, hfound⟩

theorem findRunning_none (h : findRunning type s = none) {i : Int} (hlo : 0 ≤ i)
    (hhi : i < s.appCount) (hactive : (s.apps i).active = true) : (s.apps i).type ≠ type := by
  have hnat : (i.toNat : Int) = i := Int.toNat_of_nonneg hlo
  have hmem : i.toNat ∈ List.range s.appCount.toNat := List.mem_range.mpr (by omega)
  intro htype
  have hnot := List.find?_eq_none.mp h i.toNat hmem
  rw [decide_eq_true_eq, hnat] at hnot
  exact hnot ⟨hactive, htype⟩

theorem findPid_some {i : Fin 64} (h : findPid pid p = some i) :
    p.processTable i ≠ 0#32 ∧ procPid p.heap.mem (p.processTable i) = pid := by
  have hfound := List.find?_some h
  rwa [decide_eq_true_eq] at hfound

theorem findPid_none (h : findPid pid p = none) (i : Fin 64) (hi : p.processTable i ≠ 0#32) :
    procPid p.heap.mem (p.processTable i) ≠ pid := by
  have hnot := List.find?_eq_none.mp h i (List.mem_finRange i)
  rw [decide_eq_true_eq] at hnot
  exact fun hpid => hnot ⟨hi, hpid⟩

end Search

/-- The entry taken by `app_launch` has been given up again. -/
structure DropsEntry (s t : Apps) : Prop where
  count : t.appCount = s.appCount
  others : ∀ i, i ≠ s.appCount → t.apps i = s.apps i
  inactive : (t.apps s.appCount).active = false

theorem dropApp_dropsEntry {s s' : Apps} (hcount : s'.appCount = s.appCount + 1)
    (hothers : ∀ i, i ≠ s.appCount → s'.apps i = s.apps i) :
    DropsEntry s (dropApp s.appCount s').2 where
  count := by
    rw [dropApp, hcount, Int.add_sub_cancel]
  others := fun i hi => (Function.update_of_ne hi _ _).trans (hothers i hi)
  inactive := by
    rw [dropApp, Apps.setApp]
    dsimp only
    rw [Function.update_self]

/-- The entry taken by `app_launch` holds the calculator with the process `proc`. -/
structure AddsEntry (s t : Apps) (proc : Word) : Prop where
  count : t.appCount = s.appCount + 1
  others : ∀ i, i ≠ s.appCount → t.apps i = s.apps i
  active : (t.apps s.appCount).active = true
  type : (t.apps s.appCount).type = .calculator
  cleanup : (t.apps s.appCount).cleanupFunc = 0#32
  pid : (t.apps s.appCount).pid = procPid t.run.procs.heap.mem proc
  created : (t.apps s.appCount).created = s.run.pids.length

/-- The ways through `app_launch`. -/
inductive LaunchCase (sym : AppSymbols) (ticks : Word) (s : Apps) : AppType → Int → Apps → Prop
  | full {type : AppType} : MAX_APPS ≤ s.appCount → LaunchCase sym ticks s type (-1) s
  | running {type : AppType} {i : Nat} : s.appCount < MAX_APPS → findRunning type s = some i →
      LaunchCase sym ticks s type i s
  | unsupported {type : AppType} {t : Apps} : s.appCount < MAX_APPS → type ≠ .calculator →
      t.run = s.run → DropsEntry s t → LaunchCase sym ticks s type (-1) t
  | failed {t : Apps} : s.appCount < MAX_APPS → findRunning .calculator s = none →
      s.run.create sym.calculatorName sym.calculatorProcessEntry ticks = some (0#32, t.run) →
      DropsEntry s t → LaunchCase sym ticks s .calculator (-1) t
  | launched {t : Apps} {proc : Word} : s.appCount < MAX_APPS → findRunning .calculator s = none →
      s.run.create sym.calculatorName sym.calculatorProcessEntry ticks = some (proc, t.run) →
      proc ≠ 0#32 → AddsEntry s t proc → LaunchCase sym ticks s .calculator s.appCount t

theorem appLaunch_cases {sym : AppSymbols} {type : AppType} {ticks : Word} {s t : Apps} {ret : Int}
    (h : appLaunch sym type ticks s = some (ret, t)) : LaunchCase sym ticks s type ret t := by
  unfold appLaunch at h
  split at h
  · next hfull =>
    cases h
    exact .full hfull
  · next hfull =>
    have hroom : s.appCount < MAX_APPS := Int.not_le.mp hfull
    cases hfind : findRunning type s with
    | some i =>
      rw [hfind] at h
      cases h
      exact .running hroom hfind
    | none =>
      rw [hfind] at h
      have hother : ∀ (a : App) (i : Int), i ≠ s.appCount →
          Function.update s.apps s.appCount a i = s.apps i :=
        fun a i hi => Function.update_of_ne hi _ _
      cases type with
      | calculator =>
        dsimp only at h
        obtain ⟨⟨proc, run⟩, hcreate, heq⟩ := Option.map_eq_some_iff.mp h
        dsimp only at heq
        split at heq
        · next hne =>
          cases heq
          refine .launched hroom hfind hcreate hne ⟨rfl, fun i hi => ?_, ?_, ?_, ?_, ?_, ?_⟩
          · exact ((Function.update_of_ne hi _ _).trans (Function.update_of_ne hi _ _)).trans
              (hother _ i hi)
          all_goals simp [Apps.setApp]
        · next hnull =>
          cases heq
          obtain rfl := not_not.mp hnull
          exact .failed hroom hfind hcreate (dropApp_dropsEntry rfl fun i hi =>
            (Function.update_of_ne hi _ _).trans (hother _ i hi))
      | textEditor =>
        cases h
        exact .unsupported hroom (by decide) rfl (dropApp_dropsEntry rfl (hother _))
      | fileBrowser =>
        cases h
        exact .unsupported hroom (by decide) rfl (dropApp_dropsEntry rfl (hother _))
      | terminal =>
        cases h
        exact .unsupported hroom (by decide) rfl (dropApp_dropsEntry rfl (hother _))
      | other code =>
        cases h
        exact .unsupported hroom (by simp) rfl (dropApp_dropsEntry rfl (hother _))

/-! ## The invariant -/

/-- The process that `app_launch` has created for the app has the pid of the app. -/
structure RunningApp (run : TableRun) (a : App) : Prop where
  type : a.type = .calculator
  cleanup : a.cleanupFunc = 0#32
  positive : 0 < a.created
  issued : a.created < run.pids.length
  pid : a.pid = BitVec.ofNat 32 a.created

structure AppsInvariant (s : Apps) : Prop where
  run : tableSystem.Reachable s.run
  nonneg : 0 ≤ s.appCount
  bound : s.appCount ≤ MAX_APPS
  inactive : ∀ i, s.appCount ≤ i → i < MAX_APPS → (s.apps i).active = false
  running : ∀ i, 0 ≤ i → i < s.appCount → (s.apps i).active = true → RunningApp s.run (s.apps i)
  unique : ∀ i j, 0 ≤ i → i < s.appCount → 0 ≤ j → j < s.appCount → (s.apps i).active = true →
    (s.apps j).active = true → i = j

theorem active_ne {a : App} (h : a.active = true) : a.active ≠ false := by
  rw [h]
  decide

theorem AppsInvariant.lt_count {s : Apps} (hs : AppsInvariant s) {i : Int} (hi : i < MAX_APPS)
    (hactive : (s.apps i).active = true) : i < s.appCount :=
  Int.not_le.mp fun hle => active_ne hactive (hs.inactive i hle hi)

/-- The processes may go on, and apps may become inactive. -/
theorem AppsInvariant.weaken {s t : Apps} (hs : AppsInvariant s) (hrun : tableSystem.Reachable t.run)
    (hpids : s.run.pids.length ≤ t.run.pids.length) (hcount : t.appCount = s.appCount)
    (happs : ∀ i, (t.apps i).active = false ∨ t.apps i = s.apps i) : AppsInvariant t := by
  have hsame : ∀ i, (t.apps i).active = true → t.apps i = s.apps i :=
    fun i hactive => (happs i).resolve_left (active_ne hactive)
  refine ⟨hrun, hcount ▸ hs.nonneg, hcount ▸ hs.bound, fun i hlo hhi => ?_,
    fun i hlo hhi hactive => ?_, fun i j hi hi' hj hj' hai haj => ?_⟩
  · cases happs i with
    | inl hoff => exact hoff
    | inr heq =>
      rw [heq]
      exact hs.inactive i (hcount ▸ hlo) hhi
  · have heq := hsame i hactive
    rw [heq] at hactive ⊢
    have hold := hs.running i hlo (hcount ▸ hhi) hactive
    exact ⟨hold.type, hold.cleanup, hold.positive, hold.issued.trans_le hpids, hold.pid⟩
  · have heqi := hsame i hai
    have heqj := hsame j haj
    rw [heqi] at hai
    rw [heqj] at haj
    exact hs.unique i j hi (hcount ▸ hi') hj (hcount ▸ hj') hai haj

/-! ### Processes -/

theorem tableStep_pids {s t : TableRun} {op : TableOp} (hs : tableSystem.Reachable s)
    (hst : TableStep s op t) : s.pids.length ≤ t.pids.length := by
  obtain ⟨b, qs, rest, hinv⟩ := reachable_table hs
  cases hst with
  | create h =>
    cases hinv.create h with
    | failed _ _ hsame => rw [hsame]
    | created _ _ _ hlen =>
      rw [hlen]
      exact Nat.le_succ _
  | terminate hp hne h => rw [(hinv.terminate_history h).2]

/-! ### `app_close` -/

/-- What `app_close` does to the processes: it terminates the one that `app_launch`
has created for the app, or nothing when that is gone. -/
def ClosesOwn (s t : TableRun) (a : App) : Prop :=
  (t = s ∧ ∀ p, (p, a.created) ∉ s.live) ∨
    ∃ p, (p, a.created) ∈ s.live ∧ p ≠ s.idle ∧ s.terminate p = some t ∧
      TableStep s (.terminate p) t ∧ t.live = s.live.erase (p, a.created)

theorem appClose_inactive {s : Apps} {appId : Int}
    (h : ¬ (0 ≤ appId ∧ appId < s.appCount ∧ (s.apps appId).active = true)) :
    appClose appId s = some s := by
  unfold appClose
  split
  · rfl
  · next hrange =>
    rw [not_or, Int.not_lt, Int.not_le] at hrange
    exact if_pos (Bool.eq_false_iff.mpr fun hactive => h ⟨hrange.1, hrange.2, hactive⟩)

theorem appClose_spec {s : Apps} (hs : AppsInvariant s) {appId : Int} (hlo : 0 ≤ appId)
    (hhi : appId < s.appCount) (hactive : (s.apps appId).active = true) :
    ∃ run, appClose appId s =
        some { s.setApp appId { s.apps appId with active := false } with run := run } ∧
      ClosesOwn s.run run (s.apps appId) := by
  obtain ⟨b, qs, rest, hinv⟩ := reachable_table hs.run
  have happ := hs.running appId hlo hhi hactive
  rw [appClose, if_neg (by omega), if_neg (active_ne hactive),
    if_neg (not_not_intro happ.cleanup)]
  cases hfind : findPid (s.apps appId).pid s.run.procs with
  | none =>
    refine ⟨s.run, rfl, Or.inl ⟨rfl, fun p hp => ?_⟩⟩
    have hmem : p ∈ s.run.pointers := List.mem_map_of_mem (f := Prod.fst) hp
    obtain ⟨i, hi⟩ := hinv.listed p hmem
    refine findPid_none hfind i (hi ▸ hinv.nonnull hmem) ?_
    rw [hi, happ.pid]
    exact hinv.pid_of_number hp
  | some i =>
    obtain ⟨hused, hpid⟩ := findPid_some hfind
    obtain ⟨⟨p, n⟩, hp, hi⟩ := List.mem_map.mp ((hinv.entry i).resolve_left hused)
    obtain rfl : p = s.run.procs.processTable i := hi
    rw [happ.pid] at hpid
    obtain rfl := hinv.number_eq hp happ.issued hpid
    obtain ⟨t, hterm, hst, hlive⟩ := hinv.terminate_number hp happ.positive
    dsimp only
    rw [hterm]
    exact ⟨t, rfl, Or.inr ⟨_, hp, hinv.ne_idle hp happ.positive, hterm, hst, hlive⟩⟩

/-! ### The steps -/

section Steps
variable {sym : AppSymbols} {s t : Apps}

theorem appManagerInit_invariant {s₀ : Apps} (h : tableSystem.Reachable s₀.run) :
    AppsInvariant (appManagerInit s₀) := by
  have hnone : ∀ i, ¬ (0 ≤ i ∧ i < (appManagerInit s₀).appCount) :=
    fun i hi => absurd (Int.lt_of_le_of_lt hi.1 hi.2) (Int.lt_irrefl 0)
  refine ⟨h, Int.le_refl 0, show (0 : Int) ≤ 16 by decide, fun i hlo hhi => ?_,
    fun i hlo hhi => absurd ⟨hlo, hhi⟩ (hnone i), fun i j hi hi' => absurd ⟨hi, hi'⟩ (hnone i)⟩
  rw [appManagerInit_apps, if_pos ⟨hlo, hhi⟩]

theorem appManagerUpdate_invariant (hs : AppsInvariant s) : AppsInvariant (appManagerUpdate s) := by
  refine hs.weaken hs.run (Nat.le_refl _) rfl fun i => ?_
  rw [appManagerUpdate_apps]
  split
  · exact (cleanUp_cases s.run.procs (s.apps i)).symm
  · exact Or.inr rfl

theorem appClose_invariant (hs : AppsInvariant s) {appId : Int} (h : appClose appId s = some t) :
    AppsInvariant t := by
  cases Decidable.em (0 ≤ appId ∧ appId < s.appCount ∧ (s.apps appId).active = true) with
  | inr hnot =>
    cases (appClose_inactive hnot).symm.trans h
    exact hs
  | inl hrange =>
    obtain ⟨run, hclose, hown⟩ := appClose_spec hs hrange.1 hrange.2.1 hrange.2.2
    cases hclose.symm.trans h
    have happs : ∀ i, (Function.update s.apps appId { s.apps appId with active := false } i).active =
        false ∨ Function.update s.apps appId { s.apps appId with active := false } i = s.apps i := by
      intro i
      cases Decidable.em (i = appId) with
      | inl heq =>
        rw [heq, Function.update_self]
        exact Or.inl rfl
      | inr hne => exact Or.inr (Function.update_of_ne hne _ _)
    rcases hown with ⟨rfl, _⟩ | ⟨p, _, _, _, hst, _⟩
    · exact hs.weaken hs.run (Nat.le_refl _) rfl happs
    · exact hs.weaken (hs.run.step hst) (tableStep_pids hs.run hst) rfl happs

theorem DropsEntry.invariant (hs : AppsInvariant s) (h : DropsEntry s t)
    (hrun : tableSystem.Reachable t.run) (hpids : s.run.pids.length ≤ t.run.pids.length) :
    AppsInvariant t := by
  refine hs.weaken hrun hpids h.count fun i => ?_
  cases Decidable.em (i = s.appCount) with
  | inl heq => exact Or.inl (heq ▸ h.inactive)
  | inr hne => exact Or.inr (h.others i hne)

/-- With no calculator running, no app is active. -/
theorem AppsInvariant.none_active (hs : AppsInvariant s)
    (hfind : findRunning .calculator s = none) {i : Int} (hlo : 0 ≤ i) (hhi : i < s.appCount) :
    (s.apps i).active = false := by
  by_contra hactive
  rw [Bool.not_eq_false] at hactive
  exact findRunning_none hfind hlo hhi hactive (hs.running i hlo hhi hactive).type

theorem AddsEntry.invariant (hs : AppsInvariant s) {proc : Word} (h : AddsEntry s t proc)
    (hroom : s.appCount < MAX_APPS) (hfind : findRunning .calculator s = none)
    (hrun : tableSystem.Reachable t.run)
    (hlive : t.run.live = (proc, s.run.pids.length) :: s.run.live) : AppsInvariant t := by
  obtain ⟨b, qs, rest, hinv⟩ := reachable_table hs.run
  obtain ⟨b', qs', rest', hinv'⟩ := reachable_table hrun
  have hcount := h.count
  have hnonneg := hs.nonneg
  have hone : ∀ i, 0 ≤ i → i < t.appCount → (t.apps i).active = true → i = s.appCount := by
    intro i hlo hhi hactive
    by_contra hne
    rw [h.others i hne] at hactive
    exact active_ne hactive (hs.none_active hfind hlo (by omega))
  refine ⟨hrun, by omega, by omega, fun i hlo hhi => ?_, fun i hlo hhi hactive => ?_,
    fun i j hi hi' hj hj' hai haj => (hone i hi hi' hai).trans (hone j hj hj' haj).symm⟩
  · rw [h.others i (by omega)]
    exact hs.inactive i (by omega) hhi
  · rw [hone i hlo hhi hactive]
    have hmem : (proc, s.run.pids.length) ∈ t.run.live := hlive ▸ List.mem_cons_self
    refine ⟨h.type, h.cleanup, ?_, ?_, ?_⟩
    · rw [h.created]
      exact Nat.zero_lt_of_lt (hinv.number_lt hinv.idleNumber)
    · rw [h.created]
      exact hinv'.number_lt hmem
    · rw [h.pid, h.created]
      exact hinv'.pid_of_number hmem

theorem appLaunch_invariant (hs : AppsInvariant s) {type : AppType} {ticks : Word} {ret : Int}
    (h : appLaunch sym type ticks s = some (ret, t)) : AppsInvariant t := by
  cases appLaunch_cases h with
  | full hfull => exact hs
  | running hroom hfind => exact hs
  | unsupported hroom htype hrun hdrop =>
    refine hdrop.invariant hs ?_ ?_
    · rw [hrun]
      exact hs.run
    · rw [hrun]
  | failed hroom hfind hcreate hdrop =>
    have hst : TableStep s.run (.create _ _ _) t.run := .create hcreate
    exact hdrop.invariant hs (hs.run.step hst) (tableStep_pids hs.run hst)
  | launched hroom hfind hcreate hne hadd =>
    have hlive := (create_live hcreate).trans (if_neg hne)
    exact hadd.invariant hs hroom hfind (hs.run.step (.create hcreate)) hlive

theorem reachable_apps (h : (appSystem sym).Reachable s) : AppsInvariant s := by
  refine h.invariant ?_ ?_
  · rintro s ⟨s₀, hrun, rfl⟩
    exact appManagerInit_invariant hrun
  · intro s op t _ hs hst
    cases hst with
    | launch h => exact appLaunch_invariant hs h
    | close h => exact appClose_invariant hs h
    | update => exact appManagerUpdate_invariant hs
    | process hst =>
      exact hs.weaken (hs.run.step hst) (tableStep_pids hs.run hst) rfl fun i => Or.inr rfl

end Steps

/-! ## Apps and foreign processes -/

/-- In every interleaving of the calls of the app manager with `process_create` and
`process_terminate`: `app_count` stays in range, the entries behind it are inactive,
and no type has two active apps. A process that `app_launch` creates is the one whose
number it notes for the app, and `app_close` terminates that process or, when it is
gone, nothing. -/
theorem apps_never_kill_foreign {sym : AppSymbols} {s : Apps}
    (h : (appSystem sym).Reachable s) :
    (0 ≤ s.appCount ∧ s.appCount ≤ MAX_APPS) ∧
      (∀ i, s.appCount ≤ i → i < MAX_APPS → (s.apps i).active = false) ∧
      (∀ i j, 0 ≤ i → i < MAX_APPS → 0 ≤ j → j < MAX_APPS → (s.apps i).active = true →
        (s.apps j).active = true → (s.apps i).type = (s.apps j).type → i = j) ∧
      (∀ type ticks ret t, appLaunch sym type ticks s = some (ret, t) →
        t.run.live = s.run.live ∨
          ∃ proc, t.run.live = (proc, (t.apps ret).created) :: s.run.live) ∧
      ∀ appId, ∃ t, appClose appId s = some t ∧
        (t.run = s.run ∨ ∃ p, (p, (s.apps appId).created) ∈ s.run.live ∧ p ≠ s.run.idle ∧
          s.run.terminate p = some t.run ∧
          t.run.live = s.run.live.erase (p, (s.apps appId).created)) := by
  have hs := reachable_apps h
  refine ⟨⟨hs.nonneg, hs.bound⟩, hs.inactive, fun i j hi hi' hj hj' hai haj _ => ?_,
    fun type ticks ret t hcall => ?_, fun appId => ?_⟩
  · exact hs.unique i j hi (hs.lt_count hi' hai) hj (hs.lt_count hj' haj) hai haj
  · cases appLaunch_cases hcall with
    | full hfull => exact Or.inl rfl
    | running hroom hfind => exact Or.inl rfl
    | unsupported hroom htype hrun hdrop => exact Or.inl (congrArg TableRun.live hrun)
    | failed hroom hfind hcreate hdrop => exact Or.inl ((create_live hcreate).trans (if_pos rfl))
    | @launched _ proc hroom hfind hcreate hne hadd =>
      refine Or.inr ⟨proc, ?_⟩
      rw [hadd.created]
      exact (create_live hcreate).trans (if_neg hne)
  · cases Decidable.em (0 ≤ appId ∧ appId < s.appCount ∧ (s.apps appId).active = true) with
    | inr hnot => exact ⟨s, appClose_inactive hnot, Or.inl rfl⟩
    | inl hrange =>
      obtain ⟨run, hclose, hown⟩ := appClose_spec hs hrange.1 hrange.2.1 hrange.2.2
      refine ⟨_, hclose, ?_⟩
      rcases hown with ⟨rfl, _⟩ | ⟨p, hp, hidle, hterm, _, hlive⟩
      · exact Or.inl rfl
      · exact Or.inr ⟨p, hp, hidle, hterm, hlive⟩

/-! ## Reuse of entries -/

/-- `process_create` returns NULL to `app_launch`. -/
def CreateFails (sym : AppSymbols) (ticks : Word) (s : Apps) : Prop :=
  ∃ run, s.run.create sym.calculatorName sym.calculatorProcessEntry ticks = some (0#32, run)

/-- A launch of the calculator fails only if `process_create` does or all entries hold
active apps, and it returns the entry of an active calculator. -/
def LaunchLaw (sym : AppSymbols) (s : Apps) : Prop :=
  ∀ ticks, ∃ ret t, appLaunch sym .calculator ticks s = some (ret, t) ∧
    (ret = -1 → CreateFails sym ticks s ∨
      ∀ i, 0 ≤ i → i < MAX_APPS → (s.apps i).active = true) ∧
    ∀ i, 0 ≤ i → i < MAX_APPS → (s.apps i).active = true → (s.apps i).type = .calculator → ret = i

section Reuse
variable {sym : AppSymbols} {s t : Apps}

theorem appLaunch_total (hs : AppsInvariant s) (sym : AppSymbols) (type : AppType) (ticks : Word) :
    ∃ ret t, appLaunch sym type ticks s = some (ret, t) := by
  obtain ⟨b, qs, rest, hinv⟩ := reachable_table hs.run
  obtain ⟨proc, run, hcreate⟩ := hinv.create_total sym.calculatorName sym.calculatorProcessEntry ticks
  unfold appLaunch
  split
  · exact ⟨_, _, rfl⟩
  · split
    · exact ⟨_, _, rfl⟩
    · cases type with
      | calculator => exact ⟨_, _, congrArg (Option.map _) hcreate⟩
      | textEditor => exact ⟨_, _, rfl⟩
      | fileBrowser => exact ⟨_, _, rfl⟩
      | terminal => exact ⟨_, _, rfl⟩
      | other code => exact ⟨_, _, rfl⟩

theorem createFails_iff (hs : AppsInvariant s) {ticks : Word} :
    CreateFails sym ticks s ↔ ¬ CanCreate s.run.procs := by
  obtain ⟨b, qs, rest, hinv⟩ := reachable_table hs.run
  obtain ⟨proc, run, hcreate⟩ := hinv.create_total sym.calculatorName sym.calculatorProcessEntry ticks
  rw [← hinv.create_ne_null hcreate, not_not]
  constructor
  · rintro ⟨run', hnull⟩
    cases hcreate.symm.trans hnull
    rfl
  · rintro rfl
    exact ⟨run, hcreate⟩

/-- While an entry is left the launch does what it should. -/
theorem launchLaw_of_lt (hs : AppsInvariant s) (hroom : s.appCount < MAX_APPS) : LaunchLaw sym s := by
  intro ticks
  obtain ⟨ret, t, hcall⟩ := appLaunch_total hs sym .calculator ticks
  refine ⟨ret, t, hcall, ?_⟩
  have hnone : ∀ ret : Int, findRunning .calculator s = none → ∀ i, 0 ≤ i → i < MAX_APPS →
      (s.apps i).active = true → (s.apps i).type = .calculator → ret = i :=
    fun ret hfind i hlo hhi hactive htype =>
      absurd htype (findRunning_none hfind hlo (hs.lt_count hhi hactive) hactive)
  cases appLaunch_cases hcall with
  | full hfull => exact absurd hroom (Int.not_lt.mpr hfull)
  | @running _ i hroom hfind =>
    obtain ⟨hlt, hactive, _⟩ := findRunning_some hfind
    refine ⟨fun hret => absurd hret (by omega), fun j hlo hhi hj _ => ?_⟩
    exact hs.unique i j (Int.natCast_nonneg i) hlt hlo (hs.lt_count hhi hj) hactive hj
  | unsupported hroom htype hrun hdrop => exact absurd rfl htype
  | failed hroom hfind hcreate hdrop => exact ⟨fun _ => Or.inl ⟨_, hcreate⟩, hnone _ hfind⟩
  | launched hroom hfind hcreate hne hadd =>
    have hnonneg := hs.nonneg
    exact ⟨fun hret => absurd hret (by omega), hnone _ hfind⟩

theorem appLaunch_full (hfull : MAX_APPS ≤ s.appCount) (type : AppType) (ticks : Word) :
    appLaunch sym type ticks s = some (-1, s) := if_pos hfull

/-- No two apps are active, so not all entries hold active apps. -/
theorem AppsInvariant.not_all_active (hs : AppsInvariant s) :
    ¬ ∀ i, 0 ≤ i → i < MAX_APPS → (s.apps i).active = true := by
  intro hall
  have h0 := hall 0 (by decide) (by decide)
  have h1 := hall 1 (by decide) (by decide)
  have heq := hs.unique 0 1 (by decide) (hs.lt_count (by decide) h0) (by decide)
    (hs.lt_count (by decide) h1) h0 h1
  exact absurd heq (by decide)

end Reuse

/-- In every run, launching the calculator does what it should exactly while fewer than
`MAX_APPS` entries have been used, or when no app is active and `process_create` would
fail anyway. -/
theorem app_slots_reusable_iff {sym : AppSymbols} {s : Apps} (h : (appSystem sym).Reachable s) :
    LaunchLaw sym s ↔ s.appCount < MAX_APPS ∨
      ((∀ i, 0 ≤ i → i < MAX_APPS → (s.apps i).active = false) ∧ ¬ CanCreate s.run.procs) := by
  have hs := reachable_apps h
  constructor
  · intro hlaw
    cases Decidable.em (s.appCount < MAX_APPS) with
    | inl hroom => exact Or.inl hroom
    | inr hfull =>
      obtain ⟨ret, t, hcall, hfails, hindex⟩ := hlaw 0#32
      cases (appLaunch_full (Int.not_lt.mp hfull) .calculator 0#32).symm.trans hcall
      refine Or.inr ⟨fun i hlo hhi => ?_, ?_⟩
      · by_contra hactive
        rw [Bool.not_eq_false] at hactive
        have htype := (hs.running i hlo (hs.lt_count hhi hactive) hactive).type
        have hi := hindex i hlo hhi hactive htype
        omega
      · cases hfails rfl with
        | inl hnull => exact (createFails_iff hs).mp hnull
        | inr hall => exact absurd hall hs.not_all_active
  · intro hcond
    cases Decidable.em (s.appCount < MAX_APPS) with
    | inl hroom => exact launchLaw_of_lt hs hroom
    | inr hfull =>
      obtain ⟨hnone, hcannot⟩ := hcond.resolve_left hfull
      refine fun ticks => ⟨-1, s, appLaunch_full (Int.not_lt.mp hfull) _ _,
        fun _ => Or.inl ((createFails_iff hs).mpr hcannot), fun i hlo hhi hactive => ?_⟩
      exact absurd (hnone i hlo hhi) (active_ne hactive)

/-! ## A run that uses up the entries -/

/-- A zeroed entry of the array. -/
def noApp : App := ⟨.calculator, 0#32, false, 0#32, 0#32, 0#32, 0⟩

/-- The calculator has been launched and closed `n` times. -/
structure AppsIdle (sym : AppSymbols) (s : Apps) (n : Nat) : Prop where
  reachable : (appSystem sym).Reachable s
  alone : IdleAlone s.run n
  count : s.appCount = n
  inactive : ∀ i, 0 ≤ i → i < MAX_APPS → (s.apps i).active = false

theorem appManagerInit_idle {s : Apps} (sym : AppSymbols) (h : IdleAlone s.run 0) :
    AppsIdle sym (appManagerInit s) 0 := by
  refine ⟨.init ⟨s, h.reachable, rfl⟩, h, rfl, fun i hlo hhi => ?_⟩
  rw [appManagerInit_apps, if_pos ⟨hlo, hhi⟩]

theorem boot_appsIdle (sym : AppSymbols) : ∃ s, AppsIdle sym s 0 := by
  obtain ⟨run, hrun⟩ := boot_idleAlone
  exact ⟨_, appManagerInit_idle (s := ⟨run, fun _ => noApp, 0⟩) sym hrun⟩

/-- The launch takes the next entry. -/
theorem AppsIdle.launch {sym : AppSymbols} {s : Apps} {n : Nat} (hs : AppsIdle sym s n)
    (hn : n < 16) : ∃ q t, appLaunch sym .calculator 0#32 s = some ((n : Int), t) ∧
      s.run.create sym.calculatorName sym.calculatorProcessEntry 0#32 =
        some (payload q.record, t.run) ∧
      AddsEntry s t (payload q.record) ∧ tableSystem.Reachable t.run ∧
      TableInvariant t.run idleBlock [q] [] ∧ t.run.live = (payload q.record, n + 1) :: s.run.live ∧
      t.run.pids.length = n + 2 := by
  have hinv := reachable_apps hs.reachable
  obtain ⟨ret, t, hcall⟩ := appLaunch_total hinv sym .calculator 0#32
  obtain ⟨q, run, hcreate, hreach, htable, hlive, hlen⟩ := hs.alone.create (by omega)
    sym.calculatorName sym.calculatorProcessEntry 0#32
  have hcount := hs.count
  have hroom : s.appCount < 16 := by omega
  have hne : payload q.record ≠ 0#32 :=
    htable.nonnull ((htable.live _).mpr (Or.inr ⟨q, List.mem_cons_self, rfl⟩))
  cases appLaunch_cases hcall with
  | full hfull => exact absurd hroom (Int.not_lt.mpr hfull)
  | @running _ i _ hfind =>
    obtain ⟨hlt, hactive, _⟩ := findRunning_some hfind
    exact absurd (hs.inactive i (Int.natCast_nonneg i) (Int.lt_trans hlt hroom)) (active_ne hactive)
  | unsupported _ htype => exact absurd rfl htype
  | failed _ _ hnull =>
    exact absurd (Prod.mk.inj (Option.some.inj (hcreate.symm.trans hnull))).1 hne
  | launched _ _ hcreate' _ hadd =>
    cases hcreate.symm.trans hcreate'
    rw [hcount] at hcall
    exact ⟨q, t, hcall, hcreate', hadd, hreach, htable, hlive, hlen⟩

/-- The calculator is launched and closed once more. -/
theorem AppsIdle.cycle {sym : AppSymbols} {s : Apps} {n : Nat} (hs : AppsIdle sym s n)
    (hn : n < 16) : ∃ t, AppsIdle sym t (n + 1) := by
  obtain ⟨q, t, hcall, _, hadd, hreach, htable, hlive, hlen⟩ := hs.launch hn
  have ht : (appSystem sym).Reachable t := hs.reachable.step (.launch hcall)
  have hcount := hs.count
  have hcount' := hadd.count
  have hnonneg : 0 ≤ s.appCount := by omega
  have hlast : s.appCount < t.appCount := by omega
  obtain ⟨run, hclose, hown⟩ := appClose_spec (reachable_apps ht) hnonneg hlast hadd.active
  have hcreated : (t.apps s.appCount).created = n + 1 := by rw [hadd.created, hs.alone.issued]
  have hmem : (payload q.record, n + 1) ∈ t.run.live := hlive ▸ List.mem_cons_self
  rcases hown with ⟨_, hgone⟩ | ⟨p, hp, _, hterm, _⟩
  · exact absurd (hcreated ▸ hmem) (hgone _)
  · rw [hcreated] at hp
    have hpq := congrArg Prod.fst (List.inj_on_of_nodup_map
      (htable.numbers.nodup (List.nodup_reverse.mpr List.nodup_range)) hp hmem rfl)
    obtain ⟨u, hterm', halone⟩ := idleAlone_terminate hreach htable hlen
    obtain rfl : p = payload q.record := hpq
    cases hterm'.symm.trans hterm
    refine ⟨_, ht.step (.close hclose), halone, ?_, fun i hlo hhi => ?_⟩
    · exact hcount'.trans (by omega)
    · dsimp only [Apps.setApp]
      cases Decidable.em (i = s.appCount) with
      | inl heq => rw [heq, Function.update_self]
      | inr hne => rw [Function.update_of_ne hne, hadd.others i hne, hs.inactive i hlo hhi]

theorem exists_appsIdle (sym : AppSymbols) (n : Nat) (hn : n ≤ 16) : ∃ s, AppsIdle sym s n := by
  induction n with
  | zero => exact boot_appsIdle sym
  | succ n ih =>
    obtain ⟨s, hs⟩ := ih (Nat.le_of_succ_le hn)
    exact hs.cycle hn

/-- Some addresses. -/
def someSymbols : AppSymbols := ⟨0x100000#32, 0x101000#32, 0x102000#32, 0x103000#32⟩

/-- After the first launch. -/
theorem apps_never_kill_foreign_one : ∃ s t : Apps, (appSystem someSymbols).Reachable s ∧
    s.appCount = 1 ∧ (s.apps 0).active = true ∧ appClose 0 s = some t := by
  obtain ⟨s, hs⟩ := boot_appsIdle someSymbols
  obtain ⟨q, t, hcall, _, hadd, _⟩ := hs.launch (by decide)
  have hcount := hadd.count
  have hactive := hadd.active
  rw [hs.count] at hcount hactive
  have ht : (appSystem someSymbols).Reachable t := hs.reachable.step (.launch hcall)
  obtain ⟨_, _, _, _, hclose⟩ := apps_never_kill_foreign ht
  obtain ⟨u, hu, _⟩ := hclose 0
  exact ⟨t, u, ht, hcount, hactive, hu⟩

theorem app_slots_reusable_boot : ∃ s, (appSystem someSymbols).Reachable s ∧
    LaunchLaw someSymbols s := by
  obtain ⟨s, hs⟩ := boot_appsIdle someSymbols
  refine ⟨s, hs.reachable, (app_slots_reusable_iff hs.reachable).mpr (Or.inl ?_)⟩
  rw [hs.count]
  decide

/-- After the calculator has been launched and closed 16 times, no app is active and a
process could be created, but `app_launch` returns -1. -/
theorem app_slots_not_refilled : ∃ s, (appSystem someSymbols).Reachable s ∧
    (∀ i, 0 ≤ i → i < MAX_APPS → (s.apps i).active = false) ∧
    (∀ ticks, ¬ CreateFails someSymbols ticks s) ∧
    (∀ ticks, appLaunch someSymbols .calculator ticks s = some (-1, s)) ∧
    ¬ LaunchLaw someSymbols s := by
  obtain ⟨s, hs⟩ := exists_appsIdle someSymbols 16 (le_refl 16)
  have hinv := reachable_apps hs.reachable
  have hcan : CanCreate s.run.procs := by
    refine ⟨?_, idle_room hs.alone.invariant.runs.owns⟩
    rw [BitVec.le_def, ← hs.alone.invariant.pids_length, hs.alone.issued]
    decide
  have hcreates : ∀ ticks, ¬ CreateFails someSymbols ticks s :=
    fun ticks hfails => (createFails_iff hinv).mp hfails hcan
  have hfull : ∀ ticks, appLaunch someSymbols .calculator ticks s = some (-1, s) :=
    fun ticks => appLaunch_full (Int.le_of_eq hs.count.symm) _ _
  refine ⟨s, hs.reachable, hs.inactive, hcreates, hfull, fun hlaw => ?_⟩
  obtain ⟨ret, t, hcall, hfails, _⟩ := hlaw 0#32
  cases (hfull 0#32).symm.trans hcall
  cases hfails rfl with
  | inl hnull => exact hcreates 0#32 hnull
  | inr hall => exact hinv.not_all_active hall

end Zenix
