import Zenix.Boot.Start
import Zenix.Drivers.Framebuffer

/-!
# The boot video mode (boot/boot.asm, include/multiboot.h, kernel/drivers/vga/vga.h)

`_start` copies the video mode from the multiboot information to `vbe_mode_info`, by
byte offsets that are written out in the code. The header declares the information as
a packed structure, which has the members elsewhere.

Results:
1. `filledInfo_fields`: the offsets that `_start` copies from.
2. `video_info_agrees_iff`: when the copy agrees with the structure.
3. `video_info_shifted`: a mode of 1024 by 768 pixels arrives as 4096 by 1024.
-/

namespace Zenix
open ByteMemory X86

/-! ## The packed structure (multiboot.h) -/

/-- The members of `multiboot_info_t`. Each of the two unions is one member here. -/
inductive MultibootField where
  | flags | memLower | memUpper | bootDevice | cmdline | modsCount | modsAddr
  | u
  | mmapLength | mmapAddr | drivesLength | drivesAddr | configTable | bootLoaderName | apmTable
  | vbeControlInfo | vbeModeInfo | vbeMode | vbeInterfaceSeg | vbeInterfaceOff | vbeInterfaceLen
  | framebufferAddr | framebufferPitch | framebufferWidth | framebufferHeight | framebufferBpp
  | framebufferType
  | colorInfo
deriving DecidableEq

/-- `multiboot_info_t`: its members in order, with their sizes. -/
def multibootInfo : List (MultibootField × Nat) :=
  [ (.flags, 4), (.memLower, 4), (.memUpper, 4), (.bootDevice, 4), (.cmdline, 4), (.modsCount, 4),
    (.modsAddr, 4),
    (.u, 16),
    (.mmapLength, 4), (.mmapAddr, 4), (.drivesLength, 4), (.drivesAddr, 4), (.configTable, 4),
    (.bootLoaderName, 4), (.apmTable, 4),
    (.vbeControlInfo, 4), (.vbeModeInfo, 4), (.vbeMode, 2), (.vbeInterfaceSeg, 2),
    (.vbeInterfaceOff, 2), (.vbeInterfaceLen, 2),
    (.framebufferAddr, 8), (.framebufferPitch, 4), (.framebufferWidth, 4), (.framebufferHeight, 4),
    (.framebufferBpp, 1), (.framebufferType, 1),
    (.colorInfo, 6) ]

/-- `offsetof` in a packed structure: the sizes of the members before it. -/
def packedOffset {F : Type} [DecidableEq F] (members : List (F × Nat)) (f : F) : Nat :=
  ((members.takeWhile fun m => m.1 ≠ f).map Prod.snd).sum

def packedSize {F : Type} (members : List (F × Nat)) : Nat := (members.map Prod.snd).sum

/-- `&mbi->f`. -/
def fieldAddr (mbi : Word) (f : MultibootField) : Word :=
  mbi + BitVec.ofNat 32 (packedOffset multibootInfo f)

/-- The framebuffer members of the information at `mbi`. -/
def readFramebufferInfo (m : Mem) (mbi : Word) : FramebufferInfo where
  flags := load32 m (fieldAddr mbi .flags)
  framebufferAddr :=
    load32 m (fieldAddr mbi .framebufferAddr + 4#32) ++ load32 m (fieldAddr mbi .framebufferAddr)
  framebufferPitch := load32 m (fieldAddr mbi .framebufferPitch)
  framebufferWidth := load32 m (fieldAddr mbi .framebufferWidth)
  framebufferHeight := load32 m (fieldAddr mbi .framebufferHeight)
  framebufferBpp := m (fieldAddr mbi .framebufferBpp)
  framebufferType := m (fieldAddr mbi .framebufferType)

/-- The first byte of the color information: the low byte of the address of a palette,
or the position of the red field. -/
def firstColorByte (m : Mem) (mbi : Word) : Byte := m (fieldAddr mbi .colorInfo)

/-! ## The record (vga.h) -/

/-- `vbe_mode_info_t`. -/
structure VbeModeInfo where
  width : Word
  height : Word
  pitch : Word
  bpp : Word
  framebuffer : Word

def readVbeModeInfo (m : Mem) (p : Word) : VbeModeInfo where
  width := load32 m (p + 0#32)
  height := load32 m (p + 4#32)
  pitch := load32 m (p + 8#32)
  bpp := load32 m (p + 12#32)
  framebuffer := load32 m (p + 16#32)

/-- The stores to the record, in the order of the code. -/
def storeVbeModeInfo (m : Mem) (p : Word) (v : VbeModeInfo) : Mem :=
  let m := store32 m (p + 16#32) v.framebuffer
  let m := store32 m (p + 0#32) v.width
  let m := store32 m (p + 4#32) v.height
  let m := store32 m (p + 8#32) v.pitch
  store32 m (p + 12#32) v.bpp

/-- Two words of the record. -/
theorem load_record {i j : Word} (hi : i.toNat + 4 ≤ 20) (hj : j.toNat + 4 ≤ 20)
    (hd : i.toNat + 4 ≤ j.toNat ∨ j.toNat + 4 ≤ i.toNat) (m : Mem) (p v : Word) :
    load32 (store32 m (p + j) v) (p + i) = load32 m (p + i) :=
  load32_store32_ne (by bv_omega) (by bv_omega)

theorem read_storeVbeModeInfo (m : Mem) (p : Word) (v : VbeModeInfo) :
    readVbeModeInfo (storeVbeModeInfo m p v) p = v := by
  unfold readVbeModeInfo storeVbeModeInfo
  simp (disch := decide) only [load_record, load32_store32_same]

/-! ## The property -/

/-- When `kernel_main` is called, `vbe_mode_info` has the values of the structure that
the loader has left at `ebx`. -/
def VideoInfoAgrees (sym : BootSymbols) (c : Cpu) : Prop :=
  ∃ d, start sym c = some (.kernelMain, d) ∧
    (readVbeModeInfo d.mem sym.vbeModeInfo).framebuffer =
      (readFramebufferInfo c.mem (c.reg .ebx)).framebufferAddr.setWidth 32 ∧
    (readVbeModeInfo d.mem sym.vbeModeInfo).width =
      (readFramebufferInfo c.mem (c.reg .ebx)).framebufferWidth ∧
    (readVbeModeInfo d.mem sym.vbeModeInfo).height =
      (readFramebufferInfo c.mem (c.reg .ebx)).framebufferHeight ∧
    (readVbeModeInfo d.mem sym.vbeModeInfo).pitch =
      (readFramebufferInfo c.mem (c.reg .ebx)).framebufferPitch ∧
    (readVbeModeInfo d.mem sym.vbeModeInfo).bpp =
      (readFramebufferInfo c.mem (c.reg .ebx)).framebufferBpp.setWidth 32

/-- The linker gives the record and the stack room of their own, and the loader puts the
information outside the image. -/
structure BootLayout (sym : BootSymbols) (c : Cpu) : Prop where
  info : Apart (c.reg .ebx) (packedSize multibootInfo) sym.vbeModeInfo 20
  stack : Apart (sym.stackTop - 12#32) 12 sym.vbeModeInfo 20

/-! ## What `_start` fills in -/

theorem setWidth_byte_inj {a b : Byte} : a.setWidth 32 = b.setWidth 32 ↔ a = b := by
  constructor
  · intro h
    have hback := congrArg (BitVec.setWidth 8) h
    rwa [BitVec.setWidth_setWidth_of_le _ (by decide), BitVec.setWidth_setWidth_of_le _ (by decide),
      BitVec.setWidth_eq, BitVec.setWidth_eq] at hback
  · rintro rfl
    rfl

section Filled
variable (sym : BootSymbols) {c : Cpu}

/-- The memory when the record is filled. -/
def filledInfo (c : Cpu) : Mem :=
  store32 (videoInfo sym c) (sym.vbeModeInfo + 12#32) (depthByte sym c)

theorem copyVideoInfo_mem (c : Cpu) (hedi : c.reg .edi = c.reg .ebx) :
    (runOps (copyVideoInfo sym) c).mem = filledInfo sym c ∧
      (runOps (copyVideoInfo sym) c).reg .esp = c.reg .esp := by
  constructor
  · unfold filledInfo depthByte videoInfo
    rw [← hedi]
    simp [copyVideoInfo, runOps, step, exec]
  · simp [copyVideoInfo, runOps, step, exec]

/-- With a framebuffer `kernel_main` is called with the record filled and three words
pushed. -/
theorem start_filled (h : hasFramebuffer c) :
    ∃ d a b, start sym c = some (.kernelMain, d) ∧
      d.mem = store32 (store32 (store32 (filledInfo sym c) (sym.stackTop - 4#32) a)
        (sym.stackTop - 8#32) b) (sym.stackTop - 12#32) sym.afterCall := by
  obtain ⟨hmem, _, hebx, hedi, hzero⟩ := checkFramebuffer_spec sym c
  obtain ⟨hfill, hesp⟩ := copyVideoInfo_mem sym (runOps (checkFramebuffer sym) c)
    (hedi.trans hebx.symm)
  have hfilled : filledInfo sym (runOps (checkFramebuffer sym) c) = filledInfo sym c := by
    unfold filledInfo depthByte videoInfo
    rw [hmem, hebx]
  have hstart : start sym c = runToCall (bootProgram sym) (28 + 1)
      (.jz .noFramebuffer :: (copyVideoInfo sym ++ [.jmp .bootKernel]))
      (runOps (checkFramebuffer sym) c) := runToCall_append 29 (checkFramebuffer sym) rfl _ _
  rw [runToCall_jz, if_neg fun hz => hzero.mp hz h] at hstart
  refine ⟨_, (runOps (copyVideoInfo sym) (runOps (checkFramebuffer sym) c)).reg .ebx,
    (runOps (copyVideoInfo sym) (runOps (checkFramebuffer sym) c)).reg .eax,
    hstart.trans ((runToCall_append 18 (copyVideoInfo sym) rfl _ _).trans
      (run_bootKernel_eq sym 14 _)), ?_⟩
  generalize runOps (copyVideoInfo sym) (runOps (checkFramebuffer sym) c) = e at hfill hesp
  have htop : e.reg .esp = sym.stackTop := hesp
  rw [hfilled] at hfill
  change store32 (store32 (store32 e.mem (e.reg .esp - 4#32) _) (e.reg .esp - 4#32 - 4#32) _)
    (e.reg .esp - 4#32 - 4#32 - 4#32) _ = _
  rw [hfill, htop, show sym.stackTop - 4#32 - 4#32 = sym.stackTop - 8#32 by bv_omega,
    show sym.stackTop - 8#32 - 4#32 = sym.stackTop - 12#32 by bv_omega]

section Layout
variable (hl : BootLayout sym c)
include hl

/-- A word of the information that the code has not changed yet. -/
theorem BootLayout.load_info {i j : Word} (hi : i.toNat + 4 ≤ 116) (hj : j.toNat + 4 ≤ 20) (m : Mem)
    (v : Word) :
    load32 (store32 m (sym.vbeModeInfo + j) v) (c.reg .ebx + i) = load32 m (c.reg .ebx + i) :=
  hl.info.load32_store32 hi hj m v

/-- The pushes do not touch the record. -/
theorem BootLayout.load_pushed {i : Word} (hi : i.toNat + 4 ≤ 20) (m : Mem) (a b r : Word) :
    load32 (store32 (store32 (store32 m (sym.stackTop - 4#32) a) (sym.stackTop - 8#32) b)
      (sym.stackTop - 12#32) r) (sym.vbeModeInfo + i) = load32 m (sym.vbeModeInfo + i) := by
  have hpush : ∀ (j : Word) (m : Mem) (v : Word), j.toNat + 4 ≤ 12 →
      load32 (store32 m (sym.stackTop - 12#32 + j) v) (sym.vbeModeInfo + i) =
        load32 m (sym.vbeModeInfo + i) :=
    fun j m v hj => hl.stack.symm.load32_store32 hi hj m v
  rw [show sym.stackTop - 4#32 = sym.stackTop - 12#32 + 8#32 by bv_omega,
    show sym.stackTop - 8#32 = sym.stackTop - 12#32 + 4#32 by bv_omega]
  have hlast := hpush 0#32 (store32 (store32 m (sym.stackTop - 12#32 + 8#32) a)
    (sym.stackTop - 12#32 + 4#32) b) r (by decide)
  rw [BitVec.add_zero] at hlast
  rw [hlast, hpush 4#32 _ b (by decide), hpush 8#32 _ a (by decide)]

/-- The byte that the code takes for the depth is the first of the color information. -/
theorem depthByte_first : depthByte sym c = (firstColorByte c.mem (c.reg .ebx)).setWidth 32 := by
  obtain ⟨hinfo, hrecord⟩ := hl.info
  refine depthByte_eq sym fun k hk he => ?_
  have hoff : sym.vbeModeInfo - c.reg .ebx = 110#32 - BitVec.ofNat 32 k := by bv_omega
  have hoff' : c.reg .ebx - sym.vbeModeInfo = BitVec.ofNat 32 k - 110#32 := by bv_omega
  rw [hoff] at hinfo
  rw [hoff'] at hrecord
  change 116 ≤ _ at hinfo
  bv_omega

/-- The stores, with all values read from the information as the loader left it. -/
theorem filledInfo_eq :
    filledInfo sym c = storeVbeModeInfo c.mem sym.vbeModeInfo
      { width := load32 c.mem (c.reg .ebx + 96#32)
        height := load32 c.mem (c.reg .ebx + 100#32)
        pitch := load32 c.mem (c.reg .ebx + 104#32)
        bpp := (firstColorByte c.mem (c.reg .ebx)).setWidth 32
        framebuffer := load32 c.mem (c.reg .ebx + 88#32) } := by
  have hload : ∀ {i j : Word}, i.toNat + 4 ≤ 116 → j.toNat + 4 ≤ 20 → ∀ (m : Mem) (v : Word),
      load32 (store32 m (sym.vbeModeInfo + j) v) (c.reg .ebx + i) = load32 m (c.reg .ebx + i) :=
    fun hi hj m v => hl.load_info sym hi hj m v
  have hfirst : ∀ {i : Word}, i.toNat + 4 ≤ 116 → ∀ (m : Mem) (v : Word),
      load32 (store32 m sym.vbeModeInfo v) (c.reg .ebx + i) = load32 m (c.reg .ebx + i) := by
    intro i hi m v
    have hzero := hload hi (j := 0#32) (by decide) m v
    rwa [BitVec.add_zero] at hzero
  unfold filledInfo
  rw [depthByte_first sym hl]
  unfold videoInfo storeVbeModeInfo
  simp (disch := decide) only [hload, hfirst, BitVec.add_zero]

/-- What the code has copied: the width is read from where the pitch is, the height from
where the width is, the pitch from where the height is, and the depth from the color
information. -/
theorem filledInfo_fields :
    readVbeModeInfo (filledInfo sym c) sym.vbeModeInfo =
      { width := (readFramebufferInfo c.mem (c.reg .ebx)).framebufferPitch
        height := (readFramebufferInfo c.mem (c.reg .ebx)).framebufferWidth
        pitch := (readFramebufferInfo c.mem (c.reg .ebx)).framebufferHeight
        bpp := (firstColorByte c.mem (c.reg .ebx)).setWidth 32
        framebuffer :=
          (readFramebufferInfo c.mem (c.reg .ebx)).framebufferAddr.setWidth 32 } := by
  have hlow : ∀ hi lo : Word, (hi ++ lo).setWidth 32 = lo := fun _ _ => BitVec.setWidth_append_eq_right
  rw [filledInfo_eq sym hl, read_storeVbeModeInfo, VbeModeInfo.mk.injEq]
  exact ⟨rfl, rfl, rfl, rfl, (hlow _ _).symm⟩

/-- The record when `kernel_main` is called. -/
theorem start_record (h : hasFramebuffer c) :
    ∃ d, start sym c = some (.kernelMain, d) ∧
      readVbeModeInfo d.mem sym.vbeModeInfo = readVbeModeInfo (filledInfo sym c) sym.vbeModeInfo := by
  obtain ⟨d, a, b, hstart, hmem⟩ := start_filled sym h
  refine ⟨d, hstart, ?_⟩
  have hload : ∀ {i : Word}, i.toNat + 4 ≤ 20 →
      load32 d.mem (sym.vbeModeInfo + i) = load32 (filledInfo sym c) (sym.vbeModeInfo + i) := by
    intro i hi
    rw [hmem]
    exact hl.load_pushed sym hi _ a b sym.afterCall
  unfold readVbeModeInfo
  simp (disch := decide) only [hload]

end Layout

end Filled

/-- The record agrees with the structure exactly if the pitch, the width and the height
are the same number and the depth is the first byte of the color information. -/
theorem video_info_agrees_iff (sym : BootSymbols) (c : Cpu) (hl : BootLayout sym c)
    (h : hasFramebuffer c) :
    VideoInfoAgrees sym c ↔
      (readFramebufferInfo c.mem (c.reg .ebx)).framebufferPitch =
          (readFramebufferInfo c.mem (c.reg .ebx)).framebufferWidth ∧
        (readFramebufferInfo c.mem (c.reg .ebx)).framebufferWidth =
          (readFramebufferInfo c.mem (c.reg .ebx)).framebufferHeight ∧
        (readFramebufferInfo c.mem (c.reg .ebx)).framebufferBpp =
          firstColorByte c.mem (c.reg .ebx) := by
  obtain ⟨d, hstart, hrecord⟩ := start_record sym hl h
  rw [filledInfo_fields sym hl] at hrecord
  constructor
  · rintro ⟨d', hstart', hagree⟩
    cases hstart.symm.trans hstart'
    rw [hrecord] at hagree
    obtain ⟨_, hwidth, hheight, _, hbpp⟩ := hagree
    exact ⟨hwidth, hheight, (setWidth_byte_inj.mp hbpp).symm⟩
  · rintro ⟨hwidth, hheight, hbpp⟩
    refine ⟨d, hstart, ?_⟩
    rw [hrecord]
    exact ⟨rfl, hwidth, hheight, (hwidth.trans hheight).symm, setWidth_byte_inj.mpr hbpp.symm⟩

/-- The information at 64 KB, for a mode with the framebuffer at `0xFD000000`. The last
word has the depth, the type 1 and the first two bytes of the color information. -/
def modeMemory (pitch width height depth : Word) : Mem :=
  store32 (store32 (store32 (store32 (store32 (store32 (fun _ => 0#8)
    0x10000#32 0x1000#32) 0x10058#32 0xFD000000#32) 0x10060#32 pitch) 0x10064#32 width)
    0x10068#32 height) 0x1006C#32 depth

/-- The registers as the loader leaves them. -/
def loaderCpu (m : Mem) : Cpu where
  reg := fun r => match r with
    | .eax => 0x2BADB002#32
    | .ebx => 0x10000#32
    | _ => 0#32
  eip := 0#32
  eflags := 2#32
  mem := m
  seg := fun _ => 0x10#16

/-- A square mode with 16 bits a pixel whose first color byte is 16. -/
theorem video_info_agrees_square :
    VideoInfoAgrees ⟨0x200000#32, 0x300000#32, 0x100040#32⟩
        (loaderCpu (modeMemory 512#32 512#32 512#32 0x00100110#32)) ↔
      (512#32 = 512#32 ∧ 512#32 = 512#32 ∧ 16#8 = 16#8) :=
  video_info_agrees_iff ⟨0x200000#32, 0x300000#32, 0x100040#32⟩
    (loaderCpu (modeMemory 512#32 512#32 512#32 0x00100110#32)) ⟨by decide, by decide⟩ (by decide)

/-- A mode of 1024 by 768 pixels with 32 bits each and the red field at bit 16. The record
gets the width 4096. -/
theorem video_info_shifted :
    ¬ ∀ (sym : BootSymbols) (c : Cpu), BootLayout sym c → hasFramebuffer c →
      VideoInfoAgrees sym c := by
  intro h
  have hl : BootLayout ⟨0x200000#32, 0x300000#32, 0x100040#32⟩
      (loaderCpu (modeMemory 4096#32 1024#32 768#32 0x08100120#32)) := ⟨by decide, by decide⟩
  have hf : hasFramebuffer (loaderCpu (modeMemory 4096#32 1024#32 768#32 0x08100120#32)) := by
    decide
  obtain ⟨d, hstart, hrecord⟩ := start_record _ hl hf
  obtain ⟨d', hstart', _, hwidth, _⟩ := h _ _ hl hf
  cases hstart.symm.trans hstart'
  rw [hrecord, filledInfo_fields _ hl] at hwidth
  exact absurd hwidth (by decide)

end Zenix
