import Mathlib.Data.List.FinRange
import Zenix.Hal.InterruptStubs
import Zenix.Syscall.Syscall

/-!
# The descriptor tables (kernel/hal/gdt.c, kernel/hal/idt.c, kernel/hal/isr.c, kernel/hal/irq.c)

`kernel_main` fills the GDT, the task state segment and the IDT. The records here have the
fields of the packed structures; what the processor reads from them is defined beside them.

Results:
1. `gdtSetGate_base`, `gdtSetGate_limit`: the descriptor is the segment that was asked for.
2. `boot_gates`: which of the 256 vectors lead where, from each ring.
3. `user_ports`: the ports that the task state segment leaves to ring 3.
-/

namespace Zenix
open ByteMemory

/-! ## The GDT -/

/-- `struct gdt_entry`. -/
structure GdtEntry where
  limitLow : BitVec 16
  baseLow : BitVec 16
  baseMiddle : Byte
  access : Byte
  granularity : Byte
  baseHigh : Byte

def gdtSetGate (num : Fin 6) (base limit : Word) (access gran : Byte) (gdt : Fin 6 → GdtEntry) :
    Fin 6 → GdtEntry :=
  fun n => if n = num then
      { baseLow := (base &&& 0xFFFF#32).setWidth 16
        baseMiddle := ((base >>> 16) &&& 0xFF#32).setWidth 8
        baseHigh := ((base >>> 24) &&& 0xFF#32).setWidth 8
        limitLow := (limit &&& 0xFFFF#32).setWidth 16
        granularity := ((limit >>> 16) &&& 0x0F#32).setWidth 8 ||| (gran &&& 0xF0#8)
        access := access }
    else gdt n

/-! ## The task state segment -/

/-- `struct tss_entry`. -/
structure TssEntry where
  prevTss : Word
  esp0 : Word
  ss0 : Word
  esp1 : Word
  ss1 : Word
  esp2 : Word
  ss2 : Word
  cr3 : Word
  eip : Word
  eflags : Word
  eax : Word
  ecx : Word
  edx : Word
  ebx : Word
  esp : Word
  ebp : Word
  esi : Word
  edi : Word
  es : Word
  cs : Word
  ss : Word
  ds : Word
  fs : Word
  gs : Word
  ldt : Word
  trap : BitVec 16
  iomapBase : BitVec 16

/-- The segment in memory, as words. -/
def TssEntry.words (t : TssEntry) : List Word :=
  [ t.prevTss, t.esp0, t.ss0, t.esp1, t.ss1, t.esp2, t.ss2, t.cr3, t.eip, t.eflags, t.eax, t.ecx,
    t.edx, t.ebx, t.esp, t.ebp, t.esi, t.edi, t.es, t.cs, t.ss, t.ds, t.fs, t.gs, t.ldt,
    t.iomapBase ++ t.trap ]

/-- Cleared byte by byte. -/
def clearedTss : TssEntry :=
  ⟨0#32, 0#32, 0#32, 0#32, 0#32, 0#32, 0#32, 0#32, 0#32, 0#32, 0#32, 0#32, 0#32, 0#32, 0#32, 0#32,
    0#32, 0#32, 0#32, 0#32, 0#32, 0#32, 0#32, 0#32, 0#32, 0#16, 0#16⟩

/-- `sizeof(tss)`. -/
def sizeofTss : Nat := 104

/-! ## The tables -/

/-- The tables, and the limits with which they are loaded. -/
structure DescriptorTables where
  gdt : Fin 6 → GdtEntry
  gdtLimit : BitVec 16
  tss : TssEntry
  idt : Byte → IdtEntry
  idtLimit : BitVec 16

def writeTss (tssAddress : Word) (num : Fin 6) (ss0 : BitVec 16) (esp0 : Word)
    (t : DescriptorTables) : DescriptorTables :=
  { t with
    tss := { clearedTss with
      ss0 := ss0.setWidth 32
      esp0 := esp0
      cs := 0x0b#32
      ss := 0x13#32
      ds := 0x13#32
      es := 0x13#32
      fs := 0x13#32
      gs := 0x13#32 }
    gdt := gdtSetGate num tssAddress (BitVec.ofNat 32 sizeofTss) 0xE9#8 0x00#8 t.gdt }

/-- The first five descriptors of `gdt_init`. -/
def gdtInitSegments (gdt : Fin 6 → GdtEntry) : Fin 6 → GdtEntry :=
  let gdt := gdtSetGate 0 0#32 0#32 0#8 0#8 gdt
  let gdt := gdtSetGate 1 0#32 0xFFFFFFFF#32 0x9A#8 0xCF#8 gdt
  let gdt := gdtSetGate 2 0#32 0xFFFFFFFF#32 0x92#8 0xCF#8 gdt
  let gdt := gdtSetGate 3 0#32 0xFFFFFFFF#32 0xFA#8 0xCF#8 gdt
  gdtSetGate 4 0#32 0xFFFFFFFF#32 0xF2#8 0xCF#8 gdt

/-- `gdt_init`; `tssAddress` is the address of `tss`. -/
def gdtInit (tssAddress : Word) (t : DescriptorTables) : DescriptorTables :=
  writeTss tssAddress 5 0x10#16 0#32
    { t with gdt := gdtInitSegments t.gdt, gdtLimit := 8#16 * 6#16 - 1#16 }

def DescriptorTables.setKernelStack (stack : Word) (t : DescriptorTables) : DescriptorTables :=
  { t with tss.esp0 := stack }

/-- `idt_set_gate` for one vector after the other. -/
def setGates {k : Nat} (num : Fin k → Byte) (base : Fin k → Word) (selector : BitVec 16)
    (flags : Byte) (ns : List (Fin k)) (idt : Byte → IdtEntry) : Byte → IdtEntry :=
  ns.foldl (fun idt n => idtSetGate (num n) (base n) selector flags idt) idt

def idtInit (t : DescriptorTables) : DescriptorTables :=
  { t with
    idtLimit := 8#16 * 256#16 - 1#16
    idt := setGates (fun i : Fin 256 => BitVec.ofNat 8 i) (fun _ => 0#32) 0#16 0#8
      (List.finRange 256) t.idt }

/-- The addresses of the stubs. -/
structure StubAddresses where
  isr : Fin 32 → Word
  irq : Fin 16 → Word
  syscallEntry : Word

section Install
variable (stubs : StubAddresses)

def isrInstall (t : DescriptorTables) : DescriptorTables :=
  { t with
    idt := setGates (fun n : Fin 32 => BitVec.ofNat 8 n) stubs.isr 0x08#16 0x8E#8
      (List.finRange 32) t.idt }

/-- The gates that `irq_install` sets. -/
def irqInstallGates (t : DescriptorTables) : DescriptorTables :=
  { t with
    idt := setGates (fun n : Fin 16 => BitVec.ofNat 8 (32 + n)) stubs.irq 0x08#16 0x8E#8
      (List.finRange 16) t.idt }

/-- The calls of `kernel_main`, in order. -/
def bootTables (tssAddress : Word) (t : DescriptorTables) : DescriptorTables :=
  let t := irqInstallGates stubs (isrInstall stubs (idtInit (gdtInit tssAddress t)))
  { t with idt := (syscallInit stubs.syscallEntry t.idt).2 }

end Install

/-! ## What the processor reads -/

def GdtEntry.base (e : GdtEntry) : Word := e.baseHigh ++ e.baseMiddle ++ e.baseLow

def GdtEntry.limit (e : GdtEntry) : BitVec 20 := e.granularity.extractLsb' 0 4 ++ e.limitLow

/-- The last offset in the segment. -/
def GdtEntry.lastOffset (e : GdtEntry) : Nat :=
  if e.granularity.getLsbD 7 then e.limit.toNat * 4096 + 4095 else e.limit.toNat

/-- The privilege level in an access byte. -/
def privilege (access : Byte) : Nat := (access.extractLsb' 5 2).toNat

/-- The code segment of a selector, for a transfer to a ring that is not outside the
current one. -/
def codeSegment (t : DescriptorTables) (cpl : Nat) (selector : BitVec 16) : Option GdtEntry :=
  let i := selector.toNat / 8
  if h : i < 6 then
    let e := t.gdt ⟨i, h⟩
    if 0 < i ∧ i * 8 + 7 ≤ t.gdtLimit.toNat ∧ e.access &&& 0x98#8 = 0x98#8 ∧
        privilege e.access ≤ cpl then some e
    else none
  else none

/-- Where the processor goes on for the vector, or nothing when it faults. An instruction
needs the privilege of the gate. -/
def vectorTarget (t : DescriptorTables) (cpl : Nat) (instruction : Bool) (v : Byte) :
    Option Word :=
  let g := t.idt v
  if v.toNat * 8 + 7 ≤ t.idtLimit.toNat ∧ g.flags &&& 0x9F#8 = 0x8E#8 ∧
      (instruction = true → cpl ≤ privilege g.flags) then
    (codeSegment t cpl g.selector).map fun e => e.base + g.base
  else none

/-! ## Segments -/

/-- A field that is masked to its width. -/
theorem setWidth_masked (x : Word) {n : Nat} (hn : n ≤ 32) :
    (x &&& BitVec.ofNat 32 (2 ^ n - 1)).setWidth n = x.setWidth n := by
  ext i hi
  have hmask : (BitVec.ofNat 32 (2 ^ n - 1)).getLsbD i = true := by
    rw [BitVec.getLsbD_ofNat, Nat.testBit_two_pow_sub_one]
    simp [hi, Nat.lt_of_lt_of_le hi hn]
  rw [BitVec.getElem_setWidth, BitVec.getElem_setWidth, BitVec.getLsbD_and, hmask, Bool.and_true]

theorem gdtSetGate_base (num : Fin 6) (base limit : Word) (access gran : Byte)
    (gdt : Fin 6 → GdtEntry) : (gdtSetGate num base limit access gran gdt num).base = base := by
  have hlow : (base &&& 0xFFFF#32).setWidth 16 = base.extractLsb' 0 16 :=
    (setWidth_masked base (by decide)).trans (BitVec.setWidth_eq_extractLsb' (by decide))
  have hmiddle : ((base >>> 16) &&& 0xFF#32).setWidth 8 = base.extractLsb' 16 8 :=
    (setWidth_masked _ (by decide)).trans BitVec.setWidth_ushiftRight_eq_extractLsb
  have hhigh : ((base >>> 24) &&& 0xFF#32).setWidth 8 = base.extractLsb' 24 8 :=
    (setWidth_masked _ (by decide)).trans BitVec.setWidth_ushiftRight_eq_extractLsb
  have hupper : base.extractLsb' 24 8 ++ base.extractLsb' 16 8 = base.extractLsb' 16 16 :=
    BitVec.extractLsb'_append_extractLsb'_eq_extractLsb' rfl
  have hwhole : base.extractLsb' 16 16 ++ base.extractLsb' 0 16 = base :=
    (BitVec.extractLsb'_append_extractLsb'_eq_extractLsb' rfl).trans BitVec.extractLsb'_eq_self
  rw [GdtEntry.base, gdtSetGate, if_pos rfl, hlow, hmiddle, hhigh]
  exact (congrArg (· ++ base.extractLsb' 0 16) hupper).trans hwhole

theorem gdtSetGate_other {num n : Fin 6} (h : n ≠ num) (base limit : Word) (access gran : Byte)
    (gdt : Fin 6 → GdtEntry) : gdtSetGate num base limit access gran gdt n = gdt n := if_neg h

/-- The limit has 20 bits, and the unit is that of `gran`. -/
theorem gdtSetGate_limit (num : Fin 6) (base limit : Word) (access gran : Byte)
    (gdt : Fin 6 → GdtEntry) :
    (gdtSetGate num base limit access gran gdt num).limit = limit.setWidth 20 ∧
      (gdtSetGate num base limit access gran gdt num).granularity.getLsbD 7 = gran.getLsbD 7 := by
  have hlow : (limit &&& 0xFFFF#32).setWidth 16 = limit.extractLsb' 0 16 :=
    (setWidth_masked limit (by decide)).trans (BitVec.setWidth_eq_extractLsb' (by decide))
  have hflags : ∀ gran : Byte, (gran &&& 0xF0#8).setWidth 4 = 0#4 := by decide +kernel
  have hhigh : (((limit >>> 16) &&& 0x0F#32).setWidth 8 ||| (gran &&& 0xF0#8)).extractLsb' 0 4 =
      limit.extractLsb' 16 4 := by
    have hmasked : (limit >>> 16 &&& 0x0F#32).setWidth 4 = (limit >>> 16).setWidth 4 :=
      setWidth_masked _ (by decide)
    rw [← BitVec.setWidth_eq_extractLsb' (by decide), BitVec.setWidth_or,
      BitVec.setWidth_setWidth_of_le _ (by decide), hmasked, hflags, BitVec.or_zero]
    exact BitVec.setWidth_ushiftRight_eq_extractLsb
  constructor
  · have hwhole : limit.extractLsb' 16 4 ++ limit.extractLsb' 0 16 = limit.setWidth 20 :=
      (BitVec.extractLsb'_append_extractLsb'_eq_extractLsb' rfl).trans
        (BitVec.setWidth_eq_extractLsb' (by decide)).symm
    rw [GdtEntry.limit, gdtSetGate, if_pos rfl, hlow, hhigh]
    exact hwhole
  · have hmask : (0x0F#32).getLsbD 7 = false := by decide
    have hmask' : (0xF0#8).getLsbD 7 = true := by decide
    rw [gdtSetGate, if_pos rfl]
    dsimp only
    rw [BitVec.getLsbD_or, BitVec.getLsbD_setWidth, BitVec.getLsbD_and, BitVec.getLsbD_and, hmask,
      hmask', Bool.and_false, Bool.and_false, Bool.false_or, Bool.and_true]

/-- The last offset of the segment that was asked for. -/
theorem gdtSetGate_lastOffset (num : Fin 6) (base limit : Word) (access gran : Byte)
    (gdt : Fin 6 → GdtEntry) :
    (gdtSetGate num base limit access gran gdt num).lastOffset =
      if gran.getLsbD 7 then limit.toNat % 2 ^ 20 * 4096 + 4095 else limit.toNat % 2 ^ 20 := by
  obtain ⟨hlimit, hunit⟩ := gdtSetGate_limit num base limit access gran gdt
  rw [GdtEntry.lastOffset, hlimit, hunit, BitVec.toNat_setWidth]

/-! ## The gates -/

section Gates
variable {k : Nat} {num : Fin k → Byte} {base : Fin k → Word} {selector : BitVec 16} {flags : Byte}

/-- What a gate was set to. -/
structure IdtEntry.Is (e : IdtEntry) (base : Word) (selector : BitVec 16) (flags : Byte) : Prop where
  base : e.base = base
  selector : e.selector = selector
  flags : e.flags = flags

theorem idtSetGate_is (selector : BitVec 16) (flags v : Byte) (base : Word) (idt : Byte → IdtEntry) :
    (idtSetGate v base selector flags idt v).Is base selector flags := by
  refine ⟨idtSetGate_base v base selector flags idt, ?_, ?_⟩
  · rw [idtSetGate, if_pos rfl]
  · rw [idtSetGate, if_pos rfl]

theorem setGates_other {ns : List (Fin k)} {idt : Byte → IdtEntry} {v : Byte}
    (h : ∀ n ∈ ns, num n ≠ v) : setGates num base selector flags ns idt v = idt v := by
  induction ns generalizing idt with
  | nil => rfl
  | cons n ns ih =>
    refine (ih fun m hm => h m (List.mem_cons_of_mem n hm)).trans ?_
    exact if_neg (h n List.mem_cons_self).symm

theorem setGates_is (hnum : Function.Injective num) {ns : List (Fin k)} {n : Fin k}
    (hn : n ∈ ns) {v : Byte} (hv : num n = v) (idt : Byte → IdtEntry) :
    (setGates num base selector flags ns idt v).Is (base n) selector flags := by
  induction ns generalizing idt with
  | nil => exact absurd hn List.not_mem_nil
  | cons m ns ih =>
    cases Decidable.em (n ∈ ns) with
    | inl hlater => exact ih hlater _
    | inr hlast =>
      obtain rfl : n = m := (List.mem_cons.mp hn).resolve_right hlast
      subst hv
      have hkept : ∀ j ∈ ns, num j ≠ num n := fun j hj heq => hlast (hnum heq ▸ hj)
      show (setGates num base selector flags ns _ (num n)).Is (base n) selector flags
      rw [setGates_other hkept]
      exact idtSetGate_is selector flags (num n) (base n) idt

end Gates

theorem vector_injective (first : Nat) {k : Nat} (h : first + k ≤ 256) :
    Function.Injective fun n : Fin k => BitVec.ofNat 8 (first + n) := by
  intro n m heq
  have hn := n.isLt
  have hm := m.isLt
  have hnat := congrArg BitVec.toNat heq
  simp only [BitVec.toNat_ofNat] at hnat
  rw [Nat.mod_eq_of_lt (by omega), Nat.mod_eq_of_lt (by omega)] at hnat
  exact Fin.ext (Nat.add_left_cancel hnat)

/-- The stub of a vector. -/
def stubOf (stubs : StubAddresses) (v : Byte) : Option Word :=
  if h : v.toNat < 32 then some (stubs.isr ⟨v.toNat, h⟩)
  else if h : v.toNat - 32 < 16 then some (stubs.irq ⟨v.toNat - 32, h⟩)
  else if v = 0x80#8 then some stubs.syscallEntry
  else none

section Boot
variable (stubs : StubAddresses) (tssAddress : Word) (t : DescriptorTables)

/-- The gate of a vector after `kernel_main`. A vector without a stub has a cleared one. -/
theorem bootTables_gate (v : Byte) :
    ((bootTables stubs tssAddress t).idt v).Is ((stubOf stubs v).getD 0#32)
      (if (stubOf stubs v).isSome then 0x08#16 else 0#16)
      (if v = 0x80#8 then 0xEE#8 else if (stubOf stubs v).isSome then 0x8E#8 else 0x00#8) := by
  have hclear : Function.Injective fun i : Fin 256 => BitVec.ofNat 8 i := by
    simpa using vector_injective 0 (k := 256) (by decide)
  have hisr : Function.Injective fun n : Fin 32 => BitVec.ofNat 8 n := by
    simpa using vector_injective 0 (k := 32) (by decide)
  have hirq : Function.Injective fun n : Fin 16 => BitVec.ofNat 8 (32 + n) :=
    vector_injective 32 (by decide)
  have hisr_lt : ∀ n : Fin 32, (BitVec.ofNat 8 n).toNat < 32 := by decide
  have hirq_ge : ∀ n : Fin 16, 32 ≤ (BitVec.ofNat 8 (32 + n)).toNat ∧
      (BitVec.ofNat 8 (32 + n)).toNat < 48 := by decide
  unfold stubOf
  have hlayers : (bootTables stubs tssAddress t).idt v =
      idtSetGate 0x80#8 stubs.syscallEntry 0x08#16 0xEE#8
        (setGates (fun n : Fin 16 => BitVec.ofNat 8 (32 + n)) stubs.irq 0x08#16 0x8E#8
          (List.finRange 16)
          (setGates (fun n : Fin 32 => BitVec.ofNat 8 n) stubs.isr 0x08#16 0x8E#8
            (List.finRange 32)
            (setGates (fun i : Fin 256 => BitVec.ofNat 8 i) (fun _ => 0#32) 0#16 0#8
              (List.finRange 256) t.idt))) v := by
    unfold bootTables syscallInit irqInstallGates isrInstall idtInit gdtInit writeTss
    dsimp only
  rw [hlayers]
  split
  · next h =>
    have hother : v ≠ 0x80#8 := by
      rintro rfl
      exact absurd h (by decide)
    have hv : BitVec.ofNat 8 (⟨v.toNat, h⟩ : Fin 32) = v := BitVec.ofNat_toNat 8 v
    rw [if_neg hother, idtSetGate, if_neg hother, setGates_other]
    · exact setGates_is hisr (List.mem_finRange ⟨v.toNat, h⟩) hv _
    · rintro n _ rfl
      exact absurd (hirq_ge n).1 (Nat.not_le_of_lt h)
  · next h =>
    split
    · next h' =>
      have hother : v ≠ 0x80#8 := by
        rintro rfl
        exact absurd h' (by decide)
      have hv : BitVec.ofNat 8 (32 + (⟨v.toNat - 32, h'⟩ : Fin 16)) = v := by
        show BitVec.ofNat 8 (32 + (v.toNat - 32)) = v
        rw [Nat.add_sub_cancel' (Nat.le_of_not_lt h)]
        exact BitVec.ofNat_toNat 8 v
      rw [if_neg hother, idtSetGate, if_neg hother]
      exact setGates_is hirq (List.mem_finRange ⟨v.toNat - 32, h'⟩) hv _
    · next h' =>
      split
      · next hsys =>
        rw [hsys]
        exact idtSetGate_is 0x08#16 0xEE#8 0x80#8 stubs.syscallEntry _
      · next hother =>
        have hv : BitVec.ofNat 8 v.toFin = v := BitVec.ofNat_toNat 8 v
        rw [idtSetGate, if_neg hother, setGates_other, setGates_other]
        · exact setGates_is hclear (List.mem_finRange v.toFin) hv _
        · rintro n _ rfl
          exact h (hisr_lt n)
        · rintro n _ rfl
          have hlt := (hirq_ge n).2
          omega

/-- The segments that `gdt_init` sets: four that cover the address space, and the task state
segment, which reaches one byte past its end. -/
theorem bootTables_segments :
    (∀ n : Fin 6, n ≠ 0 → n ≠ 5 → ((bootTables stubs tssAddress t).gdt n).base = 0#32 ∧
      ((bootTables stubs tssAddress t).gdt n).lastOffset = 2 ^ 32 - 1) ∧
    ((bootTables stubs tssAddress t).gdt 5).base = tssAddress ∧
      ((bootTables stubs tssAddress t).gdt 5).lastOffset = sizeofTss := by
  have hflat : ∀ (n : Fin 6) (access : Byte) (gdt : Fin 6 → GdtEntry),
      (gdtSetGate n 0#32 0xFFFFFFFF#32 access 0xCF#8 gdt n).base = 0#32 ∧
        (gdtSetGate n 0#32 0xFFFFFFFF#32 access 0xCF#8 gdt n).lastOffset = 2 ^ 32 - 1 :=
    fun n access gdt => ⟨gdtSetGate_base .., (gdtSetGate_lastOffset ..).trans (by decide)⟩
  have htss : ∀ gdt : Fin 6 → GdtEntry,
      (gdtSetGate 5 tssAddress (BitVec.ofNat 32 sizeofTss) 0xE9#8 0x00#8 gdt 5).lastOffset =
        sizeofTss := fun gdt => (gdtSetGate_lastOffset ..).trans (by decide)
  have hsegments : ∀ n : Fin 6, n ≠ 5 →
      (bootTables stubs tssAddress t).gdt n = gdtInitSegments t.gdt n :=
    fun n hn => gdtSetGate_other hn ..
  refine ⟨fun n hfirst hlast => ?_, gdtSetGate_base 5 tssAddress (BitVec.ofNat 32 sizeofTss) 0xE9#8
    0x00#8 (gdtInitSegments t.gdt), htss (gdtInitSegments t.gdt)⟩
  rw [hsegments n hlast, gdtInitSegments]
  match n with
  | 0 => exact absurd rfl hfirst
  | 1 =>
    rw [gdtSetGate_other (by decide), gdtSetGate_other (by decide), gdtSetGate_other (by decide)]
    exact hflat 1 0x9A#8 _
  | 2 =>
    rw [gdtSetGate_other (by decide), gdtSetGate_other (by decide)]
    exact hflat 2 0x92#8 _
  | 3 =>
    rw [gdtSetGate_other (by decide)]
    exact hflat 3 0xFA#8 _
  | 4 => exact hflat 4 0xF2#8 _
  | 5 => exact absurd rfl hlast

/-- After `kernel_main` an interrupt or an exception of any ring goes on in the stub of its
vector and every other vector faults, and an `int` of ring 3 goes on only for 0x80. -/
theorem boot_gates (cpl : Fin 4) (instruction : Bool) (v : Byte) :
    vectorTarget (bootTables stubs tssAddress t) cpl instruction v =
      if instruction = true ∧ cpl ≠ 0 ∧ v ≠ 0x80#8 then none else stubOf stubs v := by
  obtain ⟨hbase, hselector, hflags⟩ := bootTables_gate stubs tssAddress t v
  have hcode : codeSegment (bootTables stubs tssAddress t) cpl 0x08#16 =
      some ((bootTables stubs tssAddress t).gdt 1) := by
    have hzero : privilege 0x9A#8 ≤ cpl := Nat.zero_le cpl
    have haccess : (0x9A#8 &&& 0x98#8 : Byte) = 0x98#8 := by decide
    have hlimit : 1 * 8 + 7 ≤ (47#16).toNat := by decide
    exact if_pos ⟨Nat.one_pos, hlimit, haccess, hzero⟩
  have hlimit : v.toNat * 8 + 7 ≤ (bootTables stubs tssAddress t).idtLimit.toNat := by
    have hv := v.isLt
    show v.toNat * 8 + 7 ≤ 2047
    omega
  have hflat : ((bootTables stubs tssAddress t).gdt 1).base = 0#32 :=
    ((bootTables_segments stubs tssAddress t).1 1 (by decide) (by decide)).1
  unfold vectorTarget
  dsimp only
  rw [hflags, hselector, hbase]
  cases hstub : stubOf stubs v with
  | none =>
    have hother : v ≠ 0x80#8 := by
      rintro rfl
      cases hstub
    rw [if_neg hother, ite_self]
    exact if_neg fun h => absurd h.2.1 (by decide)
  | some stub =>
    have htarget : (codeSegment (bootTables stubs tssAddress t) cpl 0x08#16).map
        (fun e => e.base + stub) = some stub := by
      rw [hcode, Option.map_some, hflat, BitVec.zero_add]
    rw [Option.isSome_some, if_pos rfl, if_pos rfl, Option.getD_some, htarget]
    cases Decidable.em (v = 0x80#8) with
    | inl hsys =>
      have hring : privilege 0xEE#8 = 3 := by decide
      have hgate : (0xEE#8 &&& 0x9F#8 : Byte) = 0x8E#8 := by decide
      have hallowed : instruction = true → cpl.val ≤ 3 := fun _ => Nat.le_of_lt_succ cpl.isLt
      rw [if_pos hsys, hring, if_pos ⟨hlimit, hgate, hallowed⟩, if_neg fun h => h.2.2 hsys]
    | inr hother =>
      have hring : privilege 0x8E#8 = 0 := by decide
      have hgate : (0x8E#8 &&& 0x9F#8 : Byte) = 0x8E#8 := by decide
      have hzero : cpl.val ≤ 0 ↔ cpl = 0 := Nat.le_zero.trans Fin.val_eq_zero_iff
      rw [if_neg hother, hring]
      cases Decidable.em (instruction = true ∧ cpl ≠ 0) with
      | inl hdenied =>
        rw [if_neg fun h => hdenied.2 (hzero.mp (h.2.2 hdenied.1)),
          if_pos ⟨hdenied.1, hdenied.2, hother⟩]
      | inr hallowed =>
        have hgated : instruction = true → cpl.val ≤ 0 := fun hi =>
          hzero.mpr (Decidable.not_not.mp fun hne => hallowed ⟨hi, hne⟩)
        rw [if_pos ⟨hlimit, hgate, hgated⟩, if_neg fun h => hallowed ⟨h.1, h.2.1⟩]

end Boot

/-! ## The ports of ring 3 -/

/-- The byte of the task state segment at the offset. -/
def TssEntry.byte (t : TssEntry) (i : Nat) : Byte :=
  (t.words.getD (i / 4) 0#32).extractLsb' (8 * (i % 4)) 8

/-- The processor lets an instruction access the port: by its privilege level, or by the bit
of the port in the map that the task state segment points to. It reads two bytes of the
map. -/
def portAllowed (t : DescriptorTables) (cpl iopl : Nat) (port : BitVec 16) : Bool :=
  cpl ≤ iopl ||
    let offset := t.tss.iomapBase.toNat + port.toNat / 8
    offset + 1 ≤ (t.gdt 5).lastOffset && !(t.tss.byte offset).getLsbD (port.toNat % 8)

/-- The ports whose bit is set in a segment selector of the task state segment. -/
def selectorPorts : List Nat :=
  [68, 576, 577, 580, 608, 609, 611, 640, 641, 644, 672, 673, 676, 704, 705, 708, 736, 737, 740]

section Ports
variable (stubs : StubAddresses) (tssAddress : Word) (t : DescriptorTables)

/-- The map begins at offset 0, so the segment is its own map. -/
theorem tss_byte_bit (u : TssEntry) (p : Nat) :
    (u.byte (p / 8)).getLsbD (p % 8) = (u.words.getD (p / 32) 0#32).getLsbD (p % 32) := by
  have hword : p / 8 / 4 = p / 32 := Nat.div_div_eq_div_mul p 8 4
  have hbit : 8 * (p / 8 % 4) + p % 8 = p % 32 := by omega
  rw [TssEntry.byte, hword, BitVec.getLsbD_extractLsb', hbit]
  simp [Nat.mod_lt]

/-- The words of the task state segment, with the stack of ring 0 left out. -/
def bootTssWords : List Word :=
  [0#32, 0#32, (0x10#16).setWidth 32, 0#32, 0#32, 0#32, 0#32, 0#32, 0#32, 0#32, 0#32, 0#32, 0#32,
    0#32, 0#32, 0#32, 0#32, 0#32, 0x13#32, 0x0b#32, 0x13#32, 0x13#32, 0x13#32, 0x13#32, 0#32,
    0#16 ++ 0#16]

theorem bootTssWords_bit : ∀ p : Fin 832, p.val / 32 ≠ 1 →
    ((bootTssWords.getD (p.val / 32) 0#32).getLsbD (p.val % 32) = true ↔
      p.val ∈ selectorPorts) := by
  decide +kernel

theorem bootTables_tssBit (stack : Word) {p : Nat} (hp : p < 832) :
    ((((bootTables stubs tssAddress t).setKernelStack stack).tss.words.getD (p / 32)
        0#32).getLsbD (p % 32) = true) ↔
      p ∈ selectorPorts ∨ 32 ≤ p ∧ p < 64 ∧ stack.getLsbD (p - 32) = true := by
  have hwords : ((bootTables stubs tssAddress t).setKernelStack stack).tss.words =
      bootTssWords.set 1 stack := rfl
  have hmin : ∀ q ∈ selectorPorts, 64 ≤ q := by decide
  rw [hwords, List.getD_eq_getElem?_getD]
  cases Decidable.em (p / 32 = 1) with
  | inl hstack =>
    have hnone : p ∉ selectorPorts := fun hmem => absurd (hmin p hmem) (by omega)
    have hbit : p % 32 = p - 32 := by omega
    rw [hstack, hbit, List.getElem?_set_self (by decide), Option.getD_some, or_iff_right hnone]
    exact ⟨fun h => ⟨by omega, by omega, h⟩, fun h => h.2.2⟩
  | inr hother =>
    have hout : ¬ (32 ≤ p ∧ p < 64 ∧ stack.getLsbD (p - 32) = true) := fun h => hother (by omega)
    rw [List.getElem?_set_ne (Ne.symm hother), ← List.getD_eq_getElem?_getD, or_iff_left hout]
    exact bootTssWords_bit ⟨p, hp⟩ hother

/-- With the kernel stack of `usermode_init` in the task state segment, ring 3 may access a
port below 832, other than the set bits of the stack address and of the selectors. -/
theorem user_ports (stack : Word) (iopl : Fin 3) (port : BitVec 16) :
    portAllowed ((bootTables stubs tssAddress t).setKernelStack stack) 3 iopl port = true ↔
      port.toNat < 832 ∧ port.toNat ∉ selectorPorts ∧
        ¬ (32 ≤ port.toNat ∧ port.toNat < 64 ∧ stack.getLsbD (port.toNat - 32) = true) := by
  have hlimit : (((bootTables stubs tssAddress t).setKernelStack stack).gdt 5).lastOffset = 104 :=
    (bootTables_segments stubs tssAddress t).2.2
  have hbase : ((bootTables stubs tssAddress t).setKernelStack stack).tss.iomapBase = 0#16 := rfl
  have hring : decide (3 ≤ iopl.val) = false := decide_eq_false (Nat.not_le_of_lt iopl.isLt)
  unfold portAllowed
  dsimp only
  rw [hlimit, hbase, hring, Bool.false_or, BitVec.toNat_zero, Nat.zero_add, tss_byte_bit,
    Bool.and_eq_true, decide_eq_true_iff, Bool.not_eq_true', ← Bool.not_eq_true, ← not_or]
  constructor
  · rintro ⟨hle, hclear⟩
    have hlt : port.toNat < 832 := by omega
    exact ⟨hlt, mt (bootTables_tssBit stubs tssAddress t stack hlt).mpr hclear⟩
  · rintro ⟨hlt, hclear⟩
    exact ⟨by omega, mt (bootTables_tssBit stubs tssAddress t stack hlt).mp hclear⟩

end Ports

end Zenix
