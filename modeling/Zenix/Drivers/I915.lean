import Zenix.Lib.Memory

/-!
# The Intel HD 4600 (kernel/drivers/gpu/intel/i915_hd4600.c)

When the pipe is enabled, `i915_hd4600_init` reads the size of the picture from the register
`PIPEA_SRC`, and `setup_pipe` writes the size back. The one takes the width from the lower
half of the register, the other puts it into the upper half.

Results:
1. `pipeSource_low`, `pipeSource_high`: the halves of the register.
2. `init_detects`: the size that is recorded, and the register afterwards.
3. `detected_mode_iff`: when the size is kept.
-/

namespace Zenix
open ByteMemory

/-! ## Registers -/

def PIPEA_CONF : Word := 0x70008#32
def PIPEA_SRC : Word := 0x6001C#32
def DSPACNTR : Word := 0x70180#32
def DSPASURF : Word := 0x7019C#32
def DSPASTRIDE : Word := 0x70188#32
def PIPEACONF_ENABLE : Word := 0x80000000#32
def PLANE_CTL_ENABLE : Word := 0x80000000#32
def PLANE_CTL_FORMAT_XRGB8888 : Word := 4#32 <<< 24
def PWR_WELL_CTL : Word := 0x45400#32
def HSW_PWR_WELL_ENABLE : Word := 0x80000000#32

/-- The fields of `gpu_device_t` that the driver reads. -/
structure GpuDevice where
  bus : Byte
  slot : Byte
  func : Byte
  deviceId : BitVec 16
  bar0 : Word
  bar2 : Word

/-- `i915_device_t`. -/
structure I915Device where
  bus : Byte
  slot : Byte
  func : Byte
  deviceId : BitVec 16
  mmioBase : Word
  gttBase : Word
  mmioSize : Word
  gttSize : Word
  fbPhys : Word
  fbVirt : Word
  fbSize : Word
  width : Word
  height : Word
  pitch : Word
  bpp : Byte
  initialized : Bool

/-- The static `dev`, the registers of the device by their offsets, and the configuration
space by the address that selects a word of it. -/
structure I915 where
  dev : I915Device
  regs : Word → Word
  pciConfig : Word → Word

def mmioWrite32 (reg value : Word) (s : I915) : I915 :=
  { s with regs := Function.update s.regs reg value }

/-! ## The functions -/

def pciAddress (bus slot func offset : Byte) : Word :=
  0x80000000#32 ||| bus.setWidth 32 <<< 16 ||| slot.setWidth 32 <<< 11 ||| func.setWidth 32 <<< 8 |||
    (offset &&& 0xFC#8).setWidth 32

/-- `enable_pci_resources`. -/
def enablePciResources (s : I915) : I915 :=
  let address := pciAddress s.dev.bus s.dev.slot s.dev.func 0x04#8
  { s with pciConfig := Function.update s.pciConfig address (s.pciConfig address ||| 0x07#32) }

/-- The loop of `wait_for` with the polls that are left. -/
def waitForLoop (read : Nat → Word) (mask value : Word) : Nat → Nat → Int
  | 0, _ => -1
  | left + 1, i =>
    if read i &&& mask = value then 0 else waitForLoop read mask value left (i + 1)

/-- `wait_for` on a register that has the value `read i` at the `i`-th poll. -/
def waitFor (read : Nat → Word) (mask value : Word) (timeoutMs : Nat) : Int :=
  waitForLoop read mask value (timeoutMs * 1000) 0

/-- `init_power`; the device sets the bits of `PWR_WELL_STATE`. -/
def initPower (powerWell : Nat → Word) (s : I915) : Int × I915 :=
  let s := mmioWrite32 PWR_WELL_CTL (s.regs PWR_WELL_CTL ||| HSW_PWR_WELL_ENABLE) s
  if waitFor powerWell 0x40000000#32 0x40000000#32 200 ≠ 0 then (-1, s) else (0, s)

/-- `alloc_framebuffer`. -/
def allocFramebuffer (width height : Word) (bpp : Byte) (s : I915) : I915 :=
  let pitch := (width * (bpp / 8#8).setWidth 32 + 63#32) &&& ~~~63#32
  { s with dev := { s.dev with
      width := width
      height := height
      bpp := bpp
      pitch := pitch
      fbSize := pitch * height
      fbPhys := s.dev.gttBase
      fbVirt := s.dev.gttBase } }

/-- `setup_plane`. -/
def setupPlane (s : I915) : I915 :=
  let s := mmioWrite32 DSPACNTR 0#32 s
  let s := mmioWrite32 DSPASURF 0#32 s
  let s := mmioWrite32 DSPASTRIDE s.dev.pitch s
  let s := mmioWrite32 DSPACNTR (PLANE_CTL_ENABLE ||| PLANE_CTL_FORMAT_XRGB8888) s
  mmioWrite32 DSPASURF s.dev.fbPhys s

/-- The size as `setup_pipe` writes it. -/
def pipeSource (width height : Word) : Word := (width - 1#32) <<< 16 ||| (height - 1#32)

def setupPipe (s : I915) : Int × I915 :=
  if s.regs PIPEA_CONF &&& PIPEACONF_ENABLE ≠ 0#32 then
    (0, mmioWrite32 PIPEA_SRC (pipeSource s.dev.width s.dev.height) s)
  else (-1, s)

/-- "Try to detect current mode from registers". -/
def detectMode (s : I915) : I915 :=
  if s.regs PIPEA_CONF &&& PIPEACONF_ENABLE ≠ 0#32 then
    let src := s.regs PIPEA_SRC
    let w := (src &&& 0xFFFF#32) + 1#32
    let h := (src >>> 16 &&& 0xFFFF#32) + 1#32
    allocFramebuffer w h 32#8 s
  else allocFramebuffer 1024#32 768#32 32#8 s

/-- `i915_hd4600_init`, without its output. -/
def i915Hd4600Init (powerWell : Nat → Word) (gpu : GpuDevice) (s : I915) : Int × I915 :=
  let s := { s with dev := { s.dev with
      bus := gpu.bus
      slot := gpu.slot
      func := gpu.func
      deviceId := gpu.deviceId
      mmioBase := gpu.bar0 &&& 0xFFFFFFF0#32
      gttBase := gpu.bar2 &&& 0xFFFFFFF0#32 } }
  if s.dev.mmioBase = 0#32 ∨ s.dev.gttBase = 0#32 then (-1, s)
  else
    let s := { s with dev := { s.dev with
        mmioSize := 4#32 * 1024#32 * 1024#32
        gttSize := 256#32 * 1024#32 * 1024#32 } }
    let s := enablePciResources s
    let (result, s) := initPower powerWell s
    if result ≠ 0 then (-1, s)
    else
      let s := detectMode s
      let s := setupPlane s
      let (_, s) := setupPipe s
      (0, { s with dev := { s.dev with initialized := true } })

/-! ## The halves of the register -/

section Source
variable {width height : Word} (hw : (width - 1#32).toNat < 2 ^ 16)
  (hh : (height - 1#32).toNat < 2 ^ 16)
include hw hh

theorem pipeSource_toNat :
    (pipeSource width height).toNat = 2 ^ 16 * (width - 1#32).toNat + (height - 1#32).toNat := by
  rw [pipeSource, BitVec.toNat_or, BitVec.toNat_shiftLeft, Nat.shiftLeft_eq,
    Nat.mod_eq_of_lt (by omega), Nat.mul_comm, ← Nat.two_pow_add_eq_or_of_lt hh]

theorem pipeSource_low : pipeSource width height &&& 0xFFFF#32 = height - 1#32 := by
  have hmask : (0xFFFF#32).toNat = 2 ^ 16 - 1 := rfl
  apply BitVec.eq_of_toNat_eq
  rw [BitVec.toNat_and, hmask, Nat.and_two_pow_sub_one_eq_mod, pipeSource_toNat hw hh,
    Nat.mul_add_mod, Nat.mod_eq_of_lt hh]

theorem pipeSource_high : pipeSource width height >>> 16 &&& 0xFFFF#32 = width - 1#32 := by
  have hmask : (0xFFFF#32).toNat = 2 ^ 16 - 1 := rfl
  apply BitVec.eq_of_toNat_eq
  rw [BitVec.toNat_and, BitVec.toNat_ushiftRight, hmask, Nat.and_two_pow_sub_one_eq_mod,
    Nat.shiftRight_eq_div_pow, pipeSource_toNat hw hh, Nat.mul_add_div (by decide),
    Nat.div_eq_of_lt hh, Nat.add_zero, Nat.mod_eq_of_lt hw]

end Source

/-! ## Initialisation -/

theorem mmioWrite32_regs_self (reg value : Word) (s : I915) :
    (mmioWrite32 reg value s).regs reg = value := by
  unfold mmioWrite32
  exact Function.update_self reg value s.regs

theorem mmioWrite32_regs_ne {reg r value : Word} (h : r ≠ reg) (s : I915) :
    (mmioWrite32 reg value s).regs r = s.regs r := Function.update_of_ne h _ _

theorem initPower_spec {powerWell : Nat → Word} {s t : I915} (h : initPower powerWell s = (0, t)) :
    t.dev = s.dev ∧ ∀ r, r ≠ PWR_WELL_CTL → t.regs r = s.regs r := by
  unfold initPower at h
  dsimp only at h
  split at h
  · cases h
  · cases h
    exact ⟨rfl, fun r hr => mmioWrite32_regs_ne hr s⟩

theorem setupPlane_spec (s : I915) :
    (setupPlane s).dev = s.dev ∧
      ∀ r, r ≠ DSPACNTR → r ≠ DSPASURF → r ≠ DSPASTRIDE → (setupPlane s).regs r = s.regs r := by
  refine ⟨rfl, fun r hcntr hsurf hstride => ?_⟩
  unfold setupPlane
  dsimp only
  rw [mmioWrite32_regs_ne hsurf, mmioWrite32_regs_ne hcntr, mmioWrite32_regs_ne hstride,
    mmioWrite32_regs_ne hsurf, mmioWrite32_regs_ne hcntr]

/-- The size is recorded and written back. -/
theorem detectMode_setupPipe {s : I915} (henabled : s.regs PIPEA_CONF &&& PIPEACONF_ENABLE ≠ 0#32)
    {t : I915} (h : (setupPipe (setupPlane (detectMode s))).2 = t) :
    t.dev.width = (s.regs PIPEA_SRC &&& 0xFFFF#32) + 1#32 ∧
      t.dev.height = (s.regs PIPEA_SRC >>> 16 &&& 0xFFFF#32) + 1#32 ∧
      t.regs PIPEA_SRC = pipeSource t.dev.width t.dev.height := by
  have hdetect : (detectMode s).regs = s.regs := by
    unfold detectMode
    split <;> rfl
  obtain ⟨hdev, hregs⟩ := setupPlane_spec (detectMode s)
  have hconf : (setupPlane (detectMode s)).regs PIPEA_CONF &&& PIPEACONF_ENABLE ≠ 0#32 := by
    rw [hregs _ (by decide) (by decide) (by decide), hdetect]
    exact henabled
  rw [setupPipe, if_pos hconf] at h
  subst h
  have hmode : detectMode s = allocFramebuffer ((s.regs PIPEA_SRC &&& 0xFFFF#32) + 1#32)
      ((s.regs PIPEA_SRC >>> 16 &&& 0xFFFF#32) + 1#32) 32#8 s := if_pos henabled
  refine ⟨?_, ?_, mmioWrite32_regs_self _ _ _⟩
  · show (setupPlane (detectMode s)).dev.width = _
    rw [hdev, hmode]
    rfl
  · show (setupPlane (detectMode s)).dev.height = _
    rw [hdev, hmode]
    rfl

/-- What a successful call records, and what it leaves in the register, when the pipe is
enabled. -/
theorem init_detects {powerWell : Nat → Word} {gpu : GpuDevice} {s t : I915}
    (henabled : s.regs PIPEA_CONF &&& PIPEACONF_ENABLE ≠ 0#32)
    (hinit : i915Hd4600Init powerWell gpu s = (0, t)) :
    t.dev.width = (s.regs PIPEA_SRC &&& 0xFFFF#32) + 1#32 ∧
      t.dev.height = (s.regs PIPEA_SRC >>> 16 &&& 0xFFFF#32) + 1#32 ∧
      t.regs PIPEA_SRC = pipeSource t.dev.width t.dev.height := by
  unfold i915Hd4600Init at hinit
  dsimp only at hinit
  split at hinit
  · cases hinit
  · generalize hpower : initPower powerWell _ = power at hinit
    obtain ⟨result, s'⟩ := power
    dsimp only at hinit
    split at hinit
    · cases hinit
    · next hresult =>
      rw [not_not] at hresult
      subst hresult
      obtain ⟨_, hregs⟩ := initPower_spec hpower
      have hkept : ∀ r, r ≠ PWR_WELL_CTL → s'.regs r = s.regs r := hregs
      have hconf : s'.regs PIPEA_CONF &&& PIPEACONF_ENABLE ≠ 0#32 := by
        rw [hkept _ (by decide)]
        exact henabled
      generalize hpipe : setupPipe (setupPlane (detectMode s')) = pipe at hinit
      obtain ⟨result', t'⟩ := pipe
      cases hinit
      rw [← hkept PIPEA_SRC (by decide)]
      have hmode := detectMode_setupPipe hconf (congrArg Prod.snd hpipe)
      exact hmode

/-- With the size `w` by `h` in the register, `h` by `w` is recorded and written back: the
size is kept exactly when the picture is a square. -/
theorem detected_mode_iff {powerWell : Nat → Word} {gpu : GpuDevice} {s t : I915} {w h : Nat}
    (hw : 1 ≤ w ∧ w ≤ 65536) (hh : 1 ≤ h ∧ h ≤ 65536)
    (henabled : s.regs PIPEA_CONF &&& PIPEACONF_ENABLE ≠ 0#32)
    (hsource : s.regs PIPEA_SRC = pipeSource (BitVec.ofNat 32 w) (BitVec.ofNat 32 h))
    (hinit : i915Hd4600Init powerWell gpu s = (0, t)) :
    (t.dev.width.toNat = w ∧ t.dev.height.toNat = h ∧ t.regs PIPEA_SRC = s.regs PIPEA_SRC) ↔
      w = h := by
  have hpred : ∀ {n : Nat}, 1 ≤ n ∧ n ≤ 65536 → (BitVec.ofNat 32 n - 1#32).toNat < 2 ^ 16 := by
    intro n hn
    rw [show (1#32 : Word) = BitVec.ofNat 32 1 from rfl, ofNat_sub_ofNat hn.1,
      toNat_ofNat_of_lt (by omega)]
    omega
  obtain ⟨hwidth, hheight, hwritten⟩ := init_detects henabled hinit
  rw [hsource, pipeSource_low (hpred hw) (hpred hh), BitVec.sub_add_cancel] at hwidth
  rw [hsource, pipeSource_high (hpred hw) (hpred hh), BitVec.sub_add_cancel] at hheight
  rw [hwritten, hwidth, hheight, hsource, toNat_ofNat_of_lt (by omega), toNat_ofNat_of_lt (by omega)]
  constructor
  · exact fun hkept => hkept.1.symm
  · rintro rfl
    exact ⟨rfl, rfl, rfl⟩

/-- A device whose power well is up and whose pipe shows `w` by `h` pixels. -/
def poweredDevice (w h : Nat) : I915 where
  dev := ⟨0#8, 0#8, 0#8, 0#16, 0#32, 0#32, 0#32, 0#32, 0#32, 0#32, 0#32, 0#32, 0#32, 0#32, 0#8, false⟩
  regs := fun r =>
    if r = PIPEA_CONF then PIPEACONF_ENABLE
    else if r = PIPEA_SRC then pipeSource (BitVec.ofNat 32 w) (BitVec.ofNat 32 h)
    else 0#32
  pciConfig := fun _ => 0#32

def haswell : GpuDevice := ⟨0#8, 2#8, 0#8, 0x0412#16, 0xF7800000#32, 0xE0000000#32⟩

theorem init_powered (w h : Nat) :
    ∃ t, i915Hd4600Init (fun _ => 0x40000000#32) haswell (poweredDevice w h) = (0, t) := by
  have hpower : waitFor (fun _ => 0x40000000#32) 0x40000000#32 0x40000000#32 200 = 0 := by
    unfold waitFor waitForLoop
    exact if_pos (by decide)
  have hbars : ¬ (haswell.bar0 &&& 0xFFFFFFF0#32 = 0#32 ∨ haswell.bar2 &&& 0xFFFFFFF0#32 = 0#32) := by
    decide
  unfold i915Hd4600Init initPower
  dsimp only
  rw [if_neg hbars, hpower, if_neg (not_not.mpr rfl)]
  exact ⟨_, rfl⟩

/-- A square picture. -/
theorem detected_mode_square : ∃ t,
    i915Hd4600Init (fun _ => 0x40000000#32) haswell (poweredDevice 768 768) = (0, t) ∧
      t.dev.width.toNat = 768 ∧ t.dev.height.toNat = 768 := by
  obtain ⟨t, hinit⟩ := init_powered 768 768
  have hkept := (detected_mode_iff (w := 768) (h := 768) (by decide) (by decide) (by decide) rfl
    hinit).mpr rfl
  exact ⟨t, hinit, hkept.1, hkept.2.1⟩

/-- 1024 by 768 becomes 768 by 1024, in the record and in the register. -/
theorem detected_mode_swapped : ∃ t,
    i915Hd4600Init (fun _ => 0x40000000#32) haswell (poweredDevice 1024 768) = (0, t) ∧
      t.dev.width = 768#32 ∧ t.dev.height = 1024#32 ∧
      t.regs PIPEA_SRC ≠ (poweredDevice 1024 768).regs PIPEA_SRC := by
  obtain ⟨t, hinit⟩ := init_powered 1024 768
  obtain ⟨hwidth, hheight, hwritten⟩ := init_detects (by decide) hinit
  have hw : t.dev.width = 768#32 := hwidth.trans (by decide)
  have hh : t.dev.height = 1024#32 := hheight.trans (by decide)
  refine ⟨t, hinit, hw, hh, ?_⟩
  rw [hwritten, hw, hh]
  decide

end Zenix
