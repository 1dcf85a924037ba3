import Zenix.Lib.Memory
import Zenix.Lib.Transition

/-!
# Frames on a stack

A call pushes the return address. A function that keeps a frame pointer then pushes the
frame pointer of its caller, sets its own to that place and makes room for its locals. The
two words are the record of the call.

Results:
1. `Linked.congr`: the chain of the records depends on the records only.
2. `reachable_invariant`: which records are on the stack in every run.
-/

namespace CallFrames
open ByteMemory

/-- The place of a record and the return address. -/
structure Frame where
  base : Word
  ret : Word

/-- The memory and the two registers, with the calls that have not returned, the last call
first. -/
structure State where
  mem : Mem
  esp : Word
  ebp : Word
  frames : List Frame

inductive Event where
  | call (ret : Word) (locals : Nat)
  | ret
  | store (a : Word) (v : Byte)

/-- `call`, `push ebp`, `mov ebp, esp` and `sub esp, locals`. -/
def enter (ret : Word) (locals : Nat) (s : State) : State :=
  let base := s.esp - 8#32
  { mem := store32 (store32 s.mem (base + 4#32) ret) base s.ebp
    esp := base - BitVec.ofNat 32 locals
    ebp := base
    frames := ⟨base, ret⟩ :: s.frames }

/-- `leave` and `ret`. -/
def leave (s : State) : State :=
  { s with esp := s.ebp + 8#32, ebp := load32 s.mem s.ebp, frames := s.frames.tail }

/-- Calls are made as long as the stack has room above `low`. Stores leave the records
alone. -/
inductive Step (low : Nat) : State → Event → State → Prop
  | call {s : State} {ret : Word} {locals : Nat} : ret ≠ 0#32 →
      low + 8 + locals ≤ s.esp.toNat → Step low s (.call ret locals) (enter ret locals s)
  | ret {s : State} : s.frames ≠ [] → Step low s .ret (leave s)
  | store {s : State} {a : Word} {v : Byte} :
      (∀ f ∈ s.frames, a.toNat < f.base.toNat ∨ f.base.toNat + 8 ≤ a.toNat) →
      Step low s (.store a v) { s with mem := store8 s.mem a v }

/-- From an empty stack that ends at `high`. -/
def system (low high : Nat) (bottom : Word) : TransitionSystem State Event where
  init := fun s => low ≤ high ∧ s.esp.toNat = high ∧ s.ebp = bottom ∧ s.frames = []
  step := Step low

/-- The frame pointers lead from record to record. -/
def Linked (m : Mem) (bottom : Word) : Word → List Frame → Prop
  | ebp, [] => ebp = bottom
  | ebp, f :: fs =>
      ebp = f.base ∧ load32 m (f.base + 4#32) = f.ret ∧ Linked m bottom (load32 m f.base) fs

structure Invariant (low high : Nat) (bottom : Word) (s : State) : Prop where
  top : high < 2 ^ 32
  esp : low ≤ s.esp.toNat ∧ s.esp.toNat ≤ high
  linked : Linked s.mem bottom s.ebp s.frames
  ret : ∀ f ∈ s.frames, f.ret ≠ 0#32
  inStack : ∀ f ∈ s.frames, s.esp.toNat ≤ f.base.toNat ∧ f.base.toNat + 8 ≤ high
  apart : s.frames.Pairwise fun f g => f.base.toNat + 8 ≤ g.base.toNat

section Chain
variable {low high : Nat} {bottom ebp : Word} {m m' : Mem} {fs : List Frame}

theorem record_congr {f : Frame} (hmax : f.base.toNat + 8 < 2 ^ 32)
    (h : SameOn m m' f.base.toNat (f.base.toNat + 8)) :
    load32 m' (f.base + 4#32) = load32 m (f.base + 4#32) ∧ load32 m' f.base = load32 m f.base := by
  have hsecond : (f.base + 4#32).toNat = f.base.toNat + 4 := toNat_add_ofNat (by omega)
  exact ⟨load32_congr h (by omega) (by omega) (by omega),
    load32_congr h (by omega) (by omega) (by omega)⟩

theorem Linked.congr (h : Linked m bottom ebp fs) (hmax : ∀ f ∈ fs, f.base.toNat + 8 < 2 ^ 32)
    (hsame : ∀ f ∈ fs, SameOn m m' f.base.toNat (f.base.toNat + 8)) :
    Linked m' bottom ebp fs := by
  induction fs generalizing ebp with
  | nil => exact h
  | cons f fs ih =>
    obtain ⟨hbase, hret, hrest⟩ := h
    obtain ⟨hret', hnext⟩ := record_congr (hmax f List.mem_cons_self) (hsame f List.mem_cons_self)
    refine ⟨hbase, hret'.trans hret, ?_⟩
    rw [hnext]
    exact ih hrest (fun g hg => hmax g (List.mem_cons_of_mem f hg))
      fun g hg => hsame g (List.mem_cons_of_mem f hg)

theorem enter_sameOff {s : State} {ret : Word} {locals : Nat} (hroom : 8 ≤ s.esp.toNat) :
    SameOff s.mem (enter ret locals s).mem (s.esp.toNat - 8) s.esp.toNat := by
  have hmax := s.esp.isLt
  have hbase : (s.esp - 8#32).toNat = s.esp.toNat - 8 :=
    BitVec.toNat_sub_of_le (BitVec.le_def.mpr hroom)
  have hret : (s.esp - 8#32 + 4#32).toNat = s.esp.toNat - 4 := by
    rw [toNat_add_ofNat (by omega), hbase]
    omega
  have hfirst := store32_sameOff (m := s.mem) (a := s.esp - 8#32 + 4#32) (v := ret) (by omega)
  have hsecond := store32_sameOff (m := store32 s.mem (s.esp - 8#32 + 4#32) ret) (a := s.esp - 8#32)
    (v := s.ebp) (by omega)
  rw [hret] at hfirst
  rw [hbase] at hsecond
  exact (hfirst.mono (by omega) (by omega)).trans (hsecond.mono (by omega) (by omega))

theorem enter_record (s : State) (ret : Word) (locals : Nat) :
    load32 (enter ret locals s).mem (s.esp - 8#32 + 4#32) = ret ∧
      load32 (enter ret locals s).mem (s.esp - 8#32) = s.ebp := by
  have hafter : s.esp - 8#32 + 4#32 - (s.esp - 8#32) = 4#32 := by
    rw [BitVec.add_comm, BitVec.add_sub_cancel]
  have hbefore : s.esp - 8#32 - (s.esp - 8#32 + 4#32) = 0xFFFFFFFC#32 := by
    bv_omega
  refine ⟨?_, load32_store32_same _ _ _⟩
  refine (load32_store32_ne ?_ ?_).trans (load32_store32_same _ _ _)
  · rw [hafter]
    decide
  · rw [hbefore]
    decide

theorem enter_invariant {s : State} {ret : Word} {locals : Nat} (hs : Invariant low high bottom s)
    (hret : ret ≠ 0#32) (hroom : low + 8 + locals ≤ s.esp.toNat) :
    Invariant low high bottom (enter ret locals s) := by
  have hmax := s.esp.isLt
  have hhigh := hs.esp.2
  have htop := hs.top
  have hbase : (s.esp - 8#32).toNat = s.esp.toNat - 8 :=
    BitVec.toNat_sub_of_le (BitVec.le_def.mpr (by rw [BitVec.toNat_ofNat]; omega))
  have hesp : (s.esp - 8#32 - BitVec.ofNat 32 locals).toNat = s.esp.toNat - 8 - locals := by
    have hlocals : (BitVec.ofNat 32 locals).toNat = locals := toNat_ofNat_of_lt (by omega)
    rw [BitVec.toNat_sub_of_le (BitVec.le_def.mpr (by omega)), hbase, hlocals]
  obtain ⟨hfirst, hsecond⟩ := enter_record s ret locals
  constructor
  case top => exact htop
  case esp =>
    show low ≤ (s.esp - 8#32 - BitVec.ofNat 32 locals).toNat ∧
      (s.esp - 8#32 - BitVec.ofNat 32 locals).toNat ≤ high
    omega
  case linked =>
    refine ⟨rfl, hfirst, ?_⟩
    rw [hsecond]
    refine hs.linked.congr (fun f hf => ?_) fun f hf => ?_
    · have hend := (hs.inStack f hf).2
      omega
    · exact (enter_sameOff (by omega)).sameOn (.inr (hs.inStack f hf).1)
  case ret =>
    intro f hf
    rcases List.mem_cons.mp hf with rfl | hf
    · exact hret
    · exact hs.ret f hf
  case inStack =>
    intro f hf
    show (s.esp - 8#32 - BitVec.ofNat 32 locals).toNat ≤ _ ∧ _
    rcases List.mem_cons.mp hf with rfl | hf
    · dsimp only
      omega
    · have hold := hs.inStack f hf
      omega
  case apart =>
    refine List.pairwise_cons.mpr ⟨fun f hf => ?_, hs.apart⟩
    have hold := (hs.inStack f hf).1
    dsimp only
    omega

theorem leave_invariant {s : State} {f : Frame} (hs : Invariant low high bottom s)
    (hframes : s.frames = f :: fs) : Invariant low high bottom (leave s) := by
  have hlinked := hs.linked
  have hstack := hs.inStack f (hframes ▸ List.mem_cons_self)
  have htop := hs.top
  have hlow := hs.esp.1
  have hapart := hs.apart
  rw [hframes] at hlinked hapart
  obtain ⟨hbase, _, hrest⟩ := hlinked
  have hesp : (leave s).esp.toNat = f.base.toNat + 8 := by
    show (s.ebp + 8#32).toNat = _
    rw [hbase, toNat_add_ofNat (by omega)]
  have htail : (leave s).frames = fs := by rw [leave, hframes, List.tail_cons]
  have hold : ∀ g ∈ fs, g ∈ s.frames := fun g hg => hframes ▸ List.mem_cons_of_mem f hg
  constructor
  case top => exact htop
  case esp => omega
  case linked =>
    rw [htail]
    show Linked s.mem bottom (load32 s.mem s.ebp) fs
    rw [hbase]
    exact hrest
  case ret =>
    rw [htail]
    exact fun g hg => hs.ret g (hold g hg)
  case inStack =>
    rw [htail, hesp]
    exact fun g hg => ⟨(List.pairwise_cons.mp hapart).1 g hg, (hs.inStack g (hold g hg)).2⟩
  case apart =>
    rw [htail]
    exact (List.pairwise_cons.mp hapart).2

theorem step_invariant {s t : State} {e : Event} (hs : Invariant low high bottom s)
    (h : Step low s e t) : Invariant low high bottom t := by
  cases h with
  | call hret hroom => exact enter_invariant hs hret hroom
  | ret hne =>
    obtain ⟨f, fs, hframes⟩ := List.exists_cons_of_ne_nil hne
    exact leave_invariant hs hframes
  | @store a v hoff =>
    have htop := hs.top
    refine ⟨htop, hs.esp, hs.linked.congr (fun f hf => ?_) (fun f hf => ?_), hs.ret, hs.inStack,
      hs.apart⟩
    · have hend := (hs.inStack f hf).2
      omega
    · have hout := hoff f hf
      exact (store8_sameOff _ _ _).sameOn (by omega)

theorem reachable_invariant {s : State} (h : (system low high bottom).Reachable s) :
    Invariant low high bottom s := by
  refine h.invariant ?_ fun _ _ _ _ hs hst => step_invariant hs hst
  rintro s ⟨hle, hesp, hebp, hframes⟩
  refine ⟨hesp ▸ s.esp.isLt, ⟨hesp ▸ hle, Nat.le_of_eq hesp⟩, ?_, ?_, ?_, ?_⟩
  · rw [hframes]
    exact hebp
  · rw [hframes]
    exact fun _ hf => absurd hf List.not_mem_nil
  · rw [hframes]
    exact fun _ hf => absurd hf List.not_mem_nil
  · rw [hframes]
    exact List.Pairwise.nil

end Chain

end CallFrames
