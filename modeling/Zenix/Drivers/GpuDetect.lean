import Zenix.Core.Monitor
import Zenix.Drivers.I915
import Zenix.Lib.DeviceProgram

/-!
# The scan for a graphics controller (kernel/drivers/gpu/gpu_detect.c)

Without a framebuffer from the boot loader, `kernel_main` asks every function on the PCI bus
for its class, and starts the native driver on the first graphics controller if it is one of
Intel's. The configuration space is read through a pair of ports, of which the first selects
a word and the second holds it.

Results:
1. `selectedFunction_address`, `selectedWord_address`: what an address selects.
2. `gpuDetectInit_run`: the scan finds the first display controller.
3. `display_scan`: what the native driver is started on, and what it configures.
-/

namespace Zenix
open ByteMemory DeviceProgram

/-! ## The configuration space -/

/-- A function of a device on a bus. -/
structure PciFunction where
  bus : Byte
  slot : BitVec 5
  func : BitVec 3
deriving DecidableEq

/-- The functions in the order of the scan. -/
def PciFunction.index (f : PciFunction) : Nat :=
  256 * f.bus.toNat + 8 * f.slot.toNat + f.func.toNat

/-- The words that each function shows. -/
abbrev PciConfig : Type := PciFunction → BitVec 6 → Word

def PciConfig.set (config : PciConfig) (f : PciFunction) (r : BitVec 6) (value : Word) :
    PciConfig :=
  Function.update config f (Function.update (config f) r value)

def selectedFunction (address : Word) : PciFunction where
  bus := (address >>> 16).setWidth 8
  slot := (address >>> 11).setWidth 5
  func := (address >>> 8).setWidth 3

def selectedWord (address : Word) : BitVec 6 := (address >>> 2).setWidth 6

inductive PciCommand where
  | outl (port : BitVec 16) (value : Word)
  | inl (port : BitVec 16)

def PciCommand.Answer : PciCommand → Type
  | .inl _ => Word
  | .outl _ _ => Unit

abbrev Pci (α : Type) : Type := DeviceProgram PciCommand PciCommand.Answer α

def outl (port : BitVec 16) (value : Word) : Pci Unit := .command (.outl port value) .done
def inl (port : BitVec 16) : Pci Word := .command (.inl port) .done

def PCI_CONFIG_ADDRESS : BitVec 16 := 0xCF8#16
def PCI_CONFIG_DATA : BitVec 16 := 0xCFC#16

/-- The bridge to the bus, with the address that has been selected. -/
structure HostBridge where
  address : Word
  config : PciConfig

def HostBridge.enabled (b : HostBridge) : Bool := b.address.getLsbD 31

def HostBridge.write (port : BitVec 16) (value : Word) (b : HostBridge) : HostBridge :=
  if port = PCI_CONFIG_ADDRESS then { b with address := value }
  else if port = PCI_CONFIG_DATA ∧ b.enabled then
    { b with config := b.config.set (selectedFunction b.address) (selectedWord b.address) value }
  else b

def HostBridge.read (port : BitVec 16) (b : HostBridge) : Word :=
  if port = PCI_CONFIG_ADDRESS then b.address
  else if port = PCI_CONFIG_DATA ∧ b.enabled then
    b.config (selectedFunction b.address) (selectedWord b.address)
  else 0xFFFFFFFF#32

/-- The bridge changes nothing on its own. -/
def hostBridge : Device PciCommand PciCommand.Answer HostBridge where
  perform
    | .outl port value, b => ((), b.write port value)
    | .inl port, b => (b.read port, b)
  changes := fun _ _ => False

/-! ## The functions -/

inductive GpuType where
  | unknown
  | intel
  | amd
  | nvidia
deriving DecidableEq

def GPU_VENDOR_INTEL : BitVec 16 := 0x8086#16
def GPU_VENDOR_AMD : BitVec 16 := 0x1002#16
def GPU_VENDOR_NVIDIA : BitVec 16 := 0x10DE#16

/-- `gpu_device_t`. -/
structure DetectedGpu where
  bus : Byte
  slot : Byte
  func : Byte
  vendorId : BitVec 16
  deviceId : BitVec 16
  bar0 : Word
  bar1 : Word
  bar2 : Word
  bar3 : Word
  bar4 : Word
  bar5 : Word
  type : GpuType
  vendorName : List Byte
  deviceName : List Byte
  detected : Bool

def pciReadConfig (bus slot func offset : Byte) : Pci Word :=
  outl PCI_CONFIG_ADDRESS (pciAddress bus slot func offset) >>= fun _ => inl PCI_CONFIG_DATA

def getIntelName (deviceId : BitVec 16) : List Byte :=
  if 0x0100#16 ≤ deviceId ∧ deviceId ≤ 0x01FF#16 then literal "Intel HD Graphics (Gen7)"
  else if 0x0400#16 ≤ deviceId ∧ deviceId ≤ 0x04FF#16 then literal "Intel HD Graphics (Gen8)"
  else if 0x1600#16 ≤ deviceId ∧ deviceId ≤ 0x16FF#16 then literal "Intel HD Graphics (Gen9)"
  else if 0x5900#16 ≤ deviceId ∧ deviceId ≤ 0x59FF#16 then literal "Intel UHD Graphics (Gen10)"
  else if 0x9B00#16 ≤ deviceId ∧ deviceId ≤ 0x9BFF#16 then literal "Intel UHD Graphics (Gen11)"
  else literal "Intel Graphics Controller"

/-- `switch (vendor)`. -/
def identifyVendor (vendor device : BitVec 16) (g : DetectedGpu) : DetectedGpu :=
  if vendor = GPU_VENDOR_INTEL then
    { g with type := .intel, vendorName := literal "Intel", deviceName := getIntelName device }
  else if vendor = GPU_VENDOR_AMD then
    { g with type := .amd, vendorName := literal "AMD",
             deviceName := literal "AMD Radeon Graphics" }
  else if vendor = GPU_VENDOR_NVIDIA then
    { g with type := .nvidia, vendorName := literal "NVIDIA",
             deviceName := literal "NVIDIA GeForce" }
  else
    { g with type := .unknown, vendorName := literal "Unknown",
             deviceName := literal "Unknown GPU" }

/-- The body of the loops; a result ends them. -/
def probeFunction (g : DetectedGpu) (bus slot func : Byte) : Pci (Option DetectedGpu) := do
  let config ← pciReadConfig bus slot func 0x00#8
  let vendor : BitVec 16 := config.setWidth 16
  let device : BitVec 16 := (config >>> 16).setWidth 16
  if vendor = 0xFFFF#16 then pure none
  else
    let classReg ← pciReadConfig bus slot func 0x08#8
    let baseClass : Byte := (classReg >>> 24).setWidth 8
    let subClass : Byte := (classReg >>> 16).setWidth 8
    if baseClass = 0x03#8 ∧ subClass = 0x00#8 then
      let bar0 ← pciReadConfig bus slot func 0x10#8
      let bar1 ← pciReadConfig bus slot func 0x14#8
      let bar2 ← pciReadConfig bus slot func 0x18#8
      let g := { g with vendorId := vendor, deviceId := device, bus := bus, slot := slot,
                        func := func, bar0 := bar0, bar1 := bar1, bar2 := bar2 }
      pure (some { identifyVendor vendor device g with detected := true })
    else pure none

/-- `gpu_detect_init`, without its output. -/
def gpuDetectInit (g : DetectedGpu) : Pci (Int × DetectedGpu) := do
  let g := { g with detected := false }
  let found ← firstSome (fun bus => firstSome (fun slot => firstSome (fun func =>
    probeFunction g (BitVec.ofNat 8 bus) (BitVec.ofNat 8 slot) (BitVec.ofNat 8 func))
      (List.range 8)) (List.range 32)) (List.range 256)
  match found with
  | some g => pure (0, g)
  | none => pure (-1, g)

def gpuGetDetected (g : DetectedGpu) : Option DetectedGpu := if g.detected then some g else none

/-- The fields that the driver reads. -/
def DetectedGpu.device (g : DetectedGpu) : GpuDevice where
  bus := g.bus
  slot := g.slot
  func := g.func
  deviceId := g.deviceId
  bar0 := g.bar0
  bar2 := g.bar2

/-- `kernel_main` when `gop_fb_init` has failed, without output and test picture: the new
value of `gpu_initialized`. `none` is an access through a null pointer. -/
def nativeDisplay (powerWell : Nat → Word) (g : DetectedGpu) (s : I915) (b : HostBridge) :
    Option (Bool × DetectedGpu × I915) :=
  match hostBridge.run (gpuDetectInit g) b with
  | ((result, g), _) =>
    if result = 0 then
      match gpuGetDetected g with
      | none => none
      | some gpu =>
        if gpu.vendorId = GPU_VENDOR_INTEL then
          match i915Hd4600Init powerWell gpu.device s with
          | (driver, s) => some (decide (driver = 0), g, s)
        else some (false, g, s)
    else some (false, g, s)

/-! ## What the scan looks for -/

def vendorOf (words : BitVec 6 → Word) : BitVec 16 := (words 0#6).setWidth 16
def deviceOf (words : BitVec 6 → Word) : BitVec 16 := (words 0#6 >>> 16).setWidth 16

/-- Class and subclass. -/
def classOf (words : BitVec 6 → Word) : BitVec 16 := (words 2#6 >>> 16).setWidth 16

/-- A VGA compatible controller. -/
def IsDisplay (words : BitVec 6 → Word) : Prop :=
  vendorOf words ≠ 0xFFFF#16 ∧ classOf words = 0x0300#16

instance (words : BitVec 6 → Word) : Decidable (IsDisplay words) :=
  inferInstanceAs (Decidable (_ ∧ _))

def GpuType.vendorName : GpuType → List Byte
  | .unknown => literal "Unknown"
  | .intel => literal "Intel"
  | .amd => literal "AMD"
  | .nvidia => literal "NVIDIA"

/-- The record is about the function. -/
structure Describes (g : DetectedGpu) (f : PciFunction) (words : BitVec 6 → Word) : Prop where
  bus : g.bus = f.bus
  slot : g.slot = f.slot.setWidth 8
  func : g.func = f.func.setWidth 8
  vendorId : g.vendorId = vendorOf words
  deviceId : g.deviceId = deviceOf words
  bar0 : g.bar0 = words 4#6
  bar1 : g.bar1 = words 5#6
  bar2 : g.bar2 = words 6#6
  intel : g.type = .intel ↔ vendorOf words = GPU_VENDOR_INTEL
  amd : g.type = .amd ↔ vendorOf words = GPU_VENDOR_AMD
  nvidia : g.type = .nvidia ↔ vendorOf words = GPU_VENDOR_NVIDIA
  vendorName : g.vendorName = g.type.vendorName
  detected : g.detected = true

/-! ## Addresses -/

theorem or_eq_add {a b : Nat} (k : Nat) (ha : 2 ^ k ∣ a) (hb : b < 2 ^ k) : a ||| b = a + b := by
  obtain ⟨c, rfl⟩ := ha
  exact (Nat.two_pow_add_eq_or_of_lt hb c).symm

theorem shifted_toNat {b : Byte} {k : Nat} (hk : k ≤ 24) :
    (b.setWidth 32 <<< k).toNat = 2 ^ k * b.toNat := by
  have hpow : 2 ^ k ≤ 2 ^ 24 := Nat.pow_le_pow_right (by decide) hk
  have hbound : b.toNat * 2 ^ k < 2 ^ 8 * 2 ^ 24 :=
    Nat.mul_lt_mul_of_lt_of_le b.isLt hpow (Nat.two_pow_pos 24)
  rw [BitVec.toNat_shiftLeft, BitVec.toNat_setWidth, Nat.shiftLeft_eq,
    Nat.mod_eq_of_lt (a := b.toNat) (by omega), Nat.mod_eq_of_lt (b := 2 ^ 32) hbound, Nat.mul_comm]

/-- The address of a word of a function. -/
def PciFunction.address (f : PciFunction) (offset : Byte) : Word :=
  pciAddress f.bus (f.slot.setWidth 8) (f.func.setWidth 8) offset

theorem PciFunction.address_toNat (f : PciFunction) (offset : Byte) :
    (f.address offset).toNat = 2 ^ 31 + 2 ^ 16 * f.bus.toNat + 2 ^ 11 * f.slot.toNat +
      2 ^ 8 * f.func.toNat + 4 * (offset.toNat / 4) := by
  obtain ⟨bus, slot, func⟩ := f
  have hbus := bus.isLt
  have hslot := slot.isLt
  have hfunc := func.isLt
  have hoffset := offset.isLt
  have hword : ((offset &&& 0xFC#8).setWidth 32).toNat = 4 * (offset.toNat / 4) := by
    revert offset
    decide
  rw [address, pciAddress, BitVec.toNat_or, BitVec.toNat_or, BitVec.toNat_or, BitVec.toNat_or,
    shifted_toNat (by decide), shifted_toNat (by decide), shifted_toNat (by decide), hword,
    BitVec.toNat_setWidth_of_le (by decide), BitVec.toNat_setWidth_of_le (by decide)]
  have h₁ : (0x80000000#32).toNat ||| 2 ^ 16 * bus.toNat = 2 ^ 31 + 2 ^ 16 * bus.toNat :=
    or_eq_add 24 (by decide) (by omega)
  have h₂ : 2 ^ 31 + 2 ^ 16 * bus.toNat ||| 2 ^ 11 * slot.toNat = _ :=
    or_eq_add 16 (by omega) (by omega)
  have h₃ : 2 ^ 31 + 2 ^ 16 * bus.toNat + 2 ^ 11 * slot.toNat ||| 2 ^ 8 * func.toNat = _ :=
    or_eq_add 11 (by omega) (by omega)
  rw [h₁, h₂, h₃]
  exact or_eq_add 8 (by omega) (by omega)

theorem selectedFunction_address (f : PciFunction) (offset : Byte) :
    selectedFunction (f.address offset) = f := by
  have h := f.address_toNat offset
  obtain ⟨bus, slot, func⟩ := f
  have hbus := bus.isLt
  have hslot := slot.isLt
  have hfunc := func.isLt
  have hoffset := offset.isLt
  simp only [selectedFunction, PciFunction.mk.injEq, ← BitVec.toNat_inj, BitVec.toNat_setWidth,
    BitVec.toNat_ushiftRight, Nat.shiftRight_eq_div_pow, h]
  omega

theorem selectedWord_address (f : PciFunction) (offset : Byte) :
    selectedWord (f.address offset) = (offset >>> 2).setWidth 6 := by
  have hoffset := offset.isLt
  simp only [selectedWord, ← BitVec.toNat_inj, BitVec.toNat_setWidth, BitVec.toNat_ushiftRight,
    Nat.shiftRight_eq_div_pow, f.address_toNat offset]
  omega

theorem address_enabled (f : PciFunction) (offset : Byte) :
    (f.address offset).getLsbD 31 = true := by
  have hmsb : (f.address offset).msb = true := by
    rw [BitVec.msb_eq_decide, decide_eq_true_eq, f.address_toNat offset]
    omega
  rwa [BitVec.msb_eq_getLsbD_last] at hmsb

/-! ## The scan -/

theorem pciReadConfig_run (f : PciFunction) (offset : Byte) (b : HostBridge) :
    hostBridge.run (pciReadConfig f.bus (f.slot.setWidth 8) (f.func.setWidth 8) offset) b =
      (b.config f ((offset >>> 2).setWidth 6), { b with address := f.address offset }) := by
  have hread : HostBridge.read PCI_CONFIG_DATA { b with address := f.address offset } =
      b.config f ((offset >>> 2).setWidth 6) := by
    rw [HostBridge.read, if_neg (by decide), if_pos ⟨rfl, address_enabled f offset⟩,
      selectedFunction_address, selectedWord_address]
  exact congrArg (fun w => (w, { b with address := f.address offset })) hread

/-- The record of the display controller that has been found. -/
def foundGpu (g : DetectedGpu) (f : PciFunction) (words : BitVec 6 → Word) : DetectedGpu :=
  { identifyVendor (vendorOf words) (deviceOf words)
      { g with vendorId := vendorOf words, deviceId := deviceOf words, bus := f.bus,
               slot := f.slot.setWidth 8, func := f.func.setWidth 8,
               bar0 := words 4#6, bar1 := words 5#6, bar2 := words 6#6 } with detected := true }

theorem identifyVendor_type (vendor device : BitVec 16) (g : DetectedGpu) :
    ((identifyVendor vendor device g).type = .intel ↔ vendor = GPU_VENDOR_INTEL) ∧
      ((identifyVendor vendor device g).type = .amd ↔ vendor = GPU_VENDOR_AMD) ∧
      ((identifyVendor vendor device g).type = .nvidia ↔ vendor = GPU_VENDOR_NVIDIA) ∧
      (identifyVendor vendor device g).vendorName =
        (identifyVendor vendor device g).type.vendorName := by
  unfold identifyVendor
  split
  next h => exact ⟨iff_of_true rfl h, iff_of_false nofun (h ▸ by decide),
    iff_of_false nofun (h ▸ by decide), rfl⟩
  next hintel =>
    split
    next h => exact ⟨iff_of_false nofun hintel, iff_of_true rfl h,
      iff_of_false nofun (h ▸ by decide), rfl⟩
    next hamd =>
      split
      next h => exact ⟨iff_of_false nofun hintel, iff_of_false nofun hamd, iff_of_true rfl h, rfl⟩
      next hnvidia =>
        exact ⟨iff_of_false nofun hintel, iff_of_false nofun hamd, iff_of_false nofun hnvidia, rfl⟩

/-- Nothing else is written when the vendor is identified. -/
theorem identifyVendor_kept (vendor device : BitVec 16) (g : DetectedGpu) :
    ∃ type vendorName deviceName, identifyVendor vendor device g =
      { g with type := type, vendorName := vendorName, deviceName := deviceName } := by
  unfold identifyVendor
  split_ifs <;> exact ⟨_, _, _, rfl⟩

theorem foundGpu_describes (g : DetectedGpu) (f : PciFunction) (words : BitVec 6 → Word) :
    Describes (foundGpu g f words) f words := by
  obtain ⟨hintel, hamd, hnvidia, hname⟩ := identifyVendor_type (vendorOf words) (deviceOf words)
    { g with vendorId := vendorOf words, deviceId := deviceOf words, bus := f.bus,
             slot := f.slot.setWidth 8, func := f.func.setWidth 8,
             bar0 := words 4#6, bar1 := words 5#6, bar2 := words 6#6 }
  obtain ⟨type, vendorName, deviceName, hkept⟩ :=
    identifyVendor_kept (vendorOf words) (deviceOf words)
    { g with vendorId := vendorOf words, deviceId := deviceOf words, bus := f.bus,
             slot := f.slot.setWidth 8, func := f.func.setWidth 8,
             bar0 := words 4#6, bar1 := words 5#6, bar2 := words 6#6 }
  rw [hkept] at hintel hamd hnvidia hname
  rw [foundGpu, hkept]
  exact ⟨rfl, rfl, rfl, rfl, rfl, rfl, rfl, rfl, hintel, hamd, hnvidia, hname, rfl⟩

theorem classOf_eq_iff (words : BitVec 6 → Word) :
    (words 2#6 >>> 24).setWidth 8 = 0x03#8 ∧ (words 2#6 >>> 16).setWidth 8 = 0x00#8 ↔
      classOf words = 0x0300#16 := by
  have hword := (words 2#6).isLt
  simp only [classOf, ← BitVec.toNat_inj, BitVec.toNat_setWidth, BitVec.toNat_ushiftRight,
    Nat.shiftRight_eq_div_pow, BitVec.toNat_ofNat]
  omega

theorem probeFunction_run (g : DetectedGpu) (f : PciFunction) (b : HostBridge) :
    (hostBridge.run (probeFunction g f.bus (f.slot.setWidth 8) (f.func.setWidth 8)) b).1 =
        (if IsDisplay (b.config f) then some (foundGpu g f (b.config f)) else none) ∧
      (hostBridge.run (probeFunction g f.bus (f.slot.setWidth 8) (f.func.setWidth 8)) b).2.config =
        b.config := by
  unfold probeFunction
  simp only [Device.run_bind, pciReadConfig_run]
  split
  next h =>
    rw [if_neg fun hdisplay => hdisplay.1 h]
    exact ⟨rfl, rfl⟩
  next hvendor =>
    simp only [Device.run_bind, pciReadConfig_run]
    split
    next hclass =>
      rw [if_pos ⟨hvendor, (classOf_eq_iff _).mp hclass⟩]
      simp only [Device.run_bind, pciReadConfig_run]
      exact ⟨rfl, rfl⟩
    next hclass =>
      rw [if_neg fun hdisplay => hclass ((classOf_eq_iff _).mpr hdisplay.2)]
      exact ⟨rfl, rfl⟩

/-- The function that the loops are at. -/
def PciFunction.at (bus slot func : Nat) : PciFunction :=
  ⟨BitVec.ofNat 8 bus, BitVec.ofNat 5 slot, BitVec.ofNat 3 func⟩

theorem PciFunction.at_index {bus slot func : Nat} (hbus : bus < 256) (hslot : slot < 32)
    (hfunc : func < 8) : (PciFunction.at bus slot func).index = 256 * bus + 8 * slot + func := by
  simp only [index, PciFunction.at, BitVec.toNat_ofNat, Nat.mod_eq_of_lt hbus, Nat.reducePow,
    Nat.mod_eq_of_lt hslot, Nat.mod_eq_of_lt hfunc]

/-- All functions, as the loops go through them. -/
def scanOrder : List PciFunction :=
  (List.range 256).flatMap fun bus => (List.range 32).flatMap fun slot =>
    (List.range 8).map fun func => PciFunction.at bus slot func

theorem mem_scanOrder (f : PciFunction) : f ∈ scanOrder := by
  simp only [scanOrder, List.mem_flatMap, List.mem_map, List.mem_range]
  exact ⟨_, f.bus.isLt, _, f.slot.isLt, _, f.func.isLt,
    by simp only [PciFunction.at, BitVec.ofNat_toNat, BitVec.setWidth_eq]⟩

theorem scanOrder_sorted : scanOrder.Pairwise fun f f' => f.index < f'.index := by
  simp only [scanOrder, List.pairwise_flatMap, List.pairwise_map, List.mem_flatMap, List.mem_map,
    List.mem_range]
  refine ⟨fun bus hbus => ⟨fun slot hslot => ?_, ?_⟩, ?_⟩
  · refine List.pairwise_lt_range.imp_of_mem fun hfunc hfunc' hlt => ?_
    rw [PciFunction.at_index hbus hslot (List.mem_range.mp hfunc),
      PciFunction.at_index hbus hslot (List.mem_range.mp hfunc')]
    exact Nat.add_lt_add_left hlt _
  · refine List.pairwise_lt_range.imp_of_mem fun hslot hslot' hlt => ?_
    rintro _ ⟨func, hfunc, rfl⟩ _ ⟨func', hfunc', rfl⟩
    rw [PciFunction.at_index hbus (List.mem_range.mp hslot) hfunc,
      PciFunction.at_index hbus (List.mem_range.mp hslot') hfunc']
    omega
  · refine List.pairwise_lt_range.imp_of_mem fun hbus hbus' hlt => ?_
    rintro _ ⟨slot, hslot, func, hfunc, rfl⟩ _ ⟨slot', hslot', func', hfunc', rfl⟩
    rw [PciFunction.at_index (List.mem_range.mp hbus) hslot hfunc,
      PciFunction.at_index (List.mem_range.mp hbus') hslot' hfunc']
    omega

/-- The functions in front of one have the smaller numbers. -/
theorem mem_scanOrder_before {before after : List PciFunction} {f f' : PciFunction}
    (hsplit : scanOrder = before ++ f :: after) (hlt : f'.index < f.index) : f' ∈ before := by
  have hmem := mem_scanOrder f'
  have hsorted := scanOrder_sorted
  rw [hsplit] at hmem hsorted
  rcases List.mem_append.mp hmem with hmem | hmem
  · exact hmem
  · rcases List.mem_cons.mp hmem with rfl | hmem
    · exact absurd hlt (Nat.lt_irrefl _)
    · have hgt := List.rel_of_pairwise_cons (List.pairwise_append.mp hsorted).2.1 hmem
      exact absurd hlt (Nat.lt_asymm hgt)

theorem findSome?_flatMap {α β γ : Type*} (f : β → Option γ) (g : α → List β) (l : List α) :
    (l.flatMap g).findSome? f = l.findSome? fun a => (g a).findSome? f := by
  induction l with
  | nil => rfl
  | cons a l ih =>
    rw [List.flatMap_cons, List.findSome?_append, ih, List.findSome?_cons]
    cases (g a).findSome? f <;> rfl

/-- The loops find what a search through all functions finds. -/
theorem scan_run (g : DetectedGpu) (b : HostBridge) :
    let found := hostBridge.run (firstSome (fun bus => firstSome (fun slot => firstSome (fun func =>
      probeFunction g (BitVec.ofNat 8 bus) (BitVec.ofNat 8 slot) (BitVec.ofNat 8 func))
        (List.range 8)) (List.range 32)) (List.range 256)) b
    found.1 = (scanOrder.findSome? fun f =>
        if IsDisplay (b.config f) then some (foundGpu g f (b.config f)) else none) ∧
      found.2.config = b.config := by
  simp only [scanOrder, findSome?_flatMap, List.findSome?_map]
  let I : HostBridge → Prop := fun b' => b'.config = b.config
  refine Device.run_firstSome (I := I) (fun bus _ b₁ h₁ => ?_) rfl
  refine Device.run_firstSome (I := I) (fun slot hslot b₂ h₂ => ?_) h₁
  refine Device.run_firstSome (I := I) (fun func hfunc b₃ h₃ => ?_) h₂
  have hprobe := probeFunction_run g (PciFunction.at bus slot func) b₃
  have hslot' : (BitVec.ofNat 5 slot).setWidth 8 = BitVec.ofNat 8 slot := by
    rw [BitVec.setWidth_ofNat_of_le_of_lt (by decide) (List.mem_range.mp hslot)]
  have hfunc' : (BitVec.ofNat 3 func).setWidth 8 = BitVec.ofNat 8 func := by
    rw [BitVec.setWidth_ofNat_of_le_of_lt (by decide) (List.mem_range.mp hfunc)]
  have hkept : b₃.config = b.config := h₃
  simp only [PciFunction.at, hslot', hfunc', hkept] at hprobe
  exact hprobe

theorem gpuDetectInit_run (g : DetectedGpu) (b : HostBridge) :
    (hostBridge.run (gpuDetectInit g) b).2.config = b.config ∧
      (((∀ f, ¬ IsDisplay (b.config f)) ∧
          (hostBridge.run (gpuDetectInit g) b).1 = (-1, { g with detected := false })) ∨
        ∃ f, IsDisplay (b.config f) ∧ (∀ f', f'.index < f.index → ¬ IsDisplay (b.config f')) ∧
          (hostBridge.run (gpuDetectInit g) b).1 =
            (0, foundGpu { g with detected := false } f (b.config f))) := by
  have hscan := scan_run { g with detected := false } b
  unfold gpuDetectInit
  rw [Device.run_bind]
  generalize hostBridge.run (firstSome _ (List.range 256)) b = scan at hscan ⊢
  obtain ⟨found, b'⟩ := scan
  obtain ⟨hfound, hconfig⟩ := hscan
  dsimp only at hfound hconfig ⊢
  cases found with
  | none =>
    refine ⟨hconfig, Or.inl ⟨fun f hdisplay => ?_, rfl⟩⟩
    have hnone := List.findSome?_eq_none_iff.mp hfound.symm f (mem_scanOrder f)
    rw [if_pos hdisplay] at hnone
    cases hnone
  | some r =>
    obtain ⟨before, f, after, hsplit, hf, hbefore⟩ := List.findSome?_eq_some_iff.mp hfound.symm
    by_cases hdisplay : IsDisplay (b.config f)
    · rw [if_pos hdisplay] at hf
      cases hf
      refine ⟨hconfig, Or.inr ⟨f, hdisplay, fun f' hlt hdisplay' => ?_, rfl⟩⟩
      -- a function in front of `f` has been asked
      have hnone := hbefore f' (mem_scanOrder_before hsplit hlt)
      rw [if_pos hdisplay'] at hnone
      cases hnone
    · rw [if_neg hdisplay] at hf
      cases hf

/-! ## The native driver -/

/-- The device is the same, and the configuration space. -/
structure SameDevice (s t : I915) : Prop where
  bus : t.dev.bus = s.dev.bus
  slot : t.dev.slot = s.dev.slot
  func : t.dev.func = s.dev.func
  mmioBase : t.dev.mmioBase = s.dev.mmioBase
  gttBase : t.dev.gttBase = s.dev.gttBase
  pciConfig : t.pciConfig = s.pciConfig

theorem SameDevice.trans {s t u : I915} (h : SameDevice s t) (h' : SameDevice t u) :
    SameDevice s u :=
  ⟨h'.bus.trans h.bus, h'.slot.trans h.slot, h'.func.trans h.func, h'.mmioBase.trans h.mmioBase,
    h'.gttBase.trans h.gttBase, h'.pciConfig.trans h.pciConfig⟩

theorem initPower_sameDevice (powerWell : Nat → Word) (s : I915) :
    SameDevice s (initPower powerWell s).2 := by
  unfold initPower
  dsimp only
  split <;> exact ⟨rfl, rfl, rfl, rfl, rfl, rfl⟩

theorem detectMode_sameDevice (s : I915) : SameDevice s (detectMode s) := by
  unfold detectMode
  split <;> exact ⟨rfl, rfl, rfl, rfl, rfl, rfl⟩

theorem setupPipe_sameDevice (s : I915) : SameDevice s (setupPipe s).2 := by
  unfold setupPipe
  split <;> exact ⟨rfl, rfl, rfl, rfl, rfl, rfl⟩

/-- Whatever comes of the initialisation, the driver works on the device that it has been
given, and the one word that it changes is the command word of this device. -/
theorem i915Hd4600Init_device (powerWell : Nat → Word) (gpu : GpuDevice) (s : I915) :
    ∃ t, SameDevice t (i915Hd4600Init powerWell gpu s).2 ∧ t.dev.bus = gpu.bus ∧
      t.dev.slot = gpu.slot ∧ t.dev.func = gpu.func ∧
      t.dev.mmioBase = gpu.bar0 &&& 0xFFFFFFF0#32 ∧ t.dev.gttBase = gpu.bar2 &&& 0xFFFFFFF0#32 ∧
      ∀ a, a ≠ pciAddress gpu.bus gpu.slot gpu.func 0x04#8 → t.pciConfig a = s.pciConfig a := by
  unfold i915Hd4600Init
  dsimp only
  split
  next => exact ⟨_, ⟨rfl, rfl, rfl, rfl, rfl, rfl⟩, rfl, rfl, rfl, rfl, rfl, fun a _ => rfl⟩
  next =>
    refine ⟨enablePciResources { s with dev := { s.dev with
        bus := gpu.bus
        slot := gpu.slot
        func := gpu.func
        deviceId := gpu.deviceId
        mmioBase := gpu.bar0 &&& 0xFFFFFFF0#32
        gttBase := gpu.bar2 &&& 0xFFFFFFF0#32
        mmioSize := 4#32 * 1024#32 * 1024#32
        gttSize := 256#32 * 1024#32 * 1024#32 } }, ?_, rfl, rfl, rfl, rfl, rfl,
      fun a ha => Function.update_of_ne ha _ _⟩
    split
    next => exact initPower_sameDevice powerWell _
    next =>
      refine (initPower_sameDevice powerWell _).trans ((detectMode_sameDevice _).trans ?_)
      exact SameDevice.trans (t := setupPlane _) ⟨rfl, rfl, rfl, rfl, rfl, rfl⟩
        ((setupPipe_sameDevice _).trans ⟨rfl, rfl, rfl, rfl, rfl, rfl⟩)

/-- The driver works on the function, and has configured nothing else. -/
structure Drives (s t : I915) (f : PciFunction) (words : BitVec 6 → Word) : Prop where
  bus : t.dev.bus = f.bus
  slot : t.dev.slot = f.slot.setWidth 8
  func : t.dev.func = f.func.setWidth 8
  mmioBase : t.dev.mmioBase = words 4#6 &&& 0xFFFFFFF0#32
  gttBase : t.dev.gttBase = words 6#6 &&& 0xFFFFFFF0#32
  command : ∀ a, t.pciConfig a ≠ s.pciConfig a → selectedFunction a = f ∧ selectedWord a = 1#6

theorem i915Hd4600Init_drives (powerWell : Nat → Word) {g : DetectedGpu} {f : PciFunction}
    {words : BitVec 6 → Word} (h : Describes g f words) (s : I915) :
    Drives s (i915Hd4600Init powerWell g.device s).2 f words := by
  obtain ⟨t, hsame, hbus, hslot, hfunc, hmmio, hgtt, hconfig⟩ :=
    i915Hd4600Init_device powerWell g.device s
  refine ⟨hsame.bus.trans (hbus.trans h.bus), hsame.slot.trans (hslot.trans h.slot),
    hsame.func.trans (hfunc.trans h.func), hsame.mmioBase.trans ?_, hsame.gttBase.trans ?_,
    fun a hchanged => ?_⟩
  · rw [hmmio, ← h.bar0]
    rfl
  · rw [hgtt, ← h.bar2]
    rfl
  · have haddress : a = f.address 0x04#8 := by
      by_contra hne
      refine hchanged (hsame.pciConfig ▸ hconfig a ?_)
      rwa [show g.device.bus = f.bus from h.bus, show g.device.slot = _ from h.slot,
        show g.device.func = _ from h.func]
    rw [haddress]
    exact ⟨selectedFunction_address f _, selectedWord_address f _⟩

/-- For every configuration space and whatever has been detected before: the scan changes no
word of it. With no display controller on the bus, nothing is detected and the driver is not
started. Otherwise the record is about the first one in the order of the scan, and the driver
is started if and only if this one is Intel's; it works on this function and changes no word
but its command word. -/
theorem display_scan (powerWell : Nat → Word) (g : DetectedGpu) (s : I915) (b : HostBridge) :
    (hostBridge.run (gpuDetectInit g) b).2.config = b.config ∧
      ∃ started r t, nativeDisplay powerWell g s b = some (started, r, t) ∧
        (((∀ f, ¬ IsDisplay (b.config f)) ∧ r = { g with detected := false } ∧
            started = false ∧ t = s) ∨
          ∃ f, IsDisplay (b.config f) ∧ (∀ f', f'.index < f.index → ¬ IsDisplay (b.config f')) ∧
            Describes r f (b.config f) ∧
            (vendorOf (b.config f) = GPU_VENDOR_INTEL → Drives s t f (b.config f)) ∧
            (vendorOf (b.config f) ≠ GPU_VENDOR_INTEL → started = false ∧ t = s)) := by
  obtain ⟨hconfig, hscan⟩ := gpuDetectInit_run g b
  refine ⟨hconfig, ?_⟩
  unfold nativeDisplay
  generalize hostBridge.run (gpuDetectInit g) b = scan at hscan ⊢
  obtain ⟨⟨result, r⟩, b'⟩ := scan
  rcases hscan with ⟨hnone, hresult⟩ | ⟨f, hdisplay, hfirst, hresult⟩
  · cases hresult
    exact ⟨false, _, s, rfl, Or.inl ⟨hnone, rfl, rfl, rfl⟩⟩
  · cases hresult
    have hdescribes := foundGpu_describes { g with detected := false } f (b.config f)
    generalize foundGpu { g with detected := false } f (b.config f) = r at hdescribes ⊢
    simp only [gpuGetDetected, hdescribes.detected, hdescribes.vendorId, if_true]
    split
    next hintel =>
      exact ⟨_, r, _, rfl, Or.inr ⟨f, hdisplay, hfirst, hdescribes,
        fun _ => i915Hd4600Init_drives powerWell hdescribes s, fun hother => absurd hintel hother⟩⟩
    next hother =>
      exact ⟨false, r, s, rfl, Or.inr ⟨f, hdisplay, hfirst, hdescribes,
        fun hintel => absurd hintel hother, fun _ => ⟨rfl, rfl⟩⟩⟩

end Zenix
