import Zenix.Boot.VideoInfo
import Zenix.Lib.AccessLog
import Zenix.Lib.Strided
import Zenix.Mm.HeapRefinement

/-!
# Pixels (kernel/drivers/vga/vga.c)

The driver keeps the picture in a back buffer of `pitch * height` bytes, or in the frame
buffer when there is no memory for one. A pixel takes one to four bytes. `vga_set_pixel` logs
the address of every byte that it writes.

Results:
1. `vgaInit_ready`: what `vga_init` leaves for the modes of 8, 16, 24 and 32 bits.
2. `vgaSetPixel_eq`, `vgaGetPixel_toNat`: the four encodings as one.
3. `vga_pixel_laws`: a pixel that is set is read back, the others stay, and every write is
   inside the buffer.
-/

namespace Zenix
open ByteMemory FirstFit Logged

/-! ## The functions -/

/-- The mode and the statics of vga.c. Only `vga_swap_buffers` uses the address of the frame
buffer after `vga_init`. -/
structure Vga where
  vbeModeInfo : VbeModeInfo
  width : Word
  height : Word
  backbuffer : Word
  bytesPerPixel : Word

/-- `vga_init`; `none` is a call of `kmalloc` that does not return. -/
def vgaInit (vbeModeInfo : VbeModeInfo) (h : Heap) : Option (Vga × Heap) :=
  (kmalloc (vbeModeInfo.pitch * vbeModeInfo.height) h).map fun (p, h) =>
    ({ vbeModeInfo := vbeModeInfo
       width := vbeModeInfo.width
       height := vbeModeInfo.height
       backbuffer := if p = 0#32 then vbeModeInfo.framebuffer else p
       bytesPerPixel := vbeModeInfo.bpp / 8#32 }, h)

def writeByte (a : Word) (b : Byte) (m : Mem) : Logged Word Mem := do
  touch a
  pure (store8 m a b)

/-- The `i`-th byte of a colour. -/
def colorByte (color : Word) (i : Nat) : Byte := (color >>> (8 * i)).setWidth 8

/-- The store of a colour as an integer of `n` bytes. -/
def writeColor (a color : Word) (n : Nat) (m : Mem) : Logged Word Mem :=
  (List.range n).foldlM
    (fun m (i : Nat) => writeByte (a + BitVec.ofNat 32 i) (colorByte color i) m) m

def vgaSetPixel (v : Vga) (x y color : Word) (m : Mem) : Logged Word Mem :=
  if v.width ≤ x ∨ v.height ≤ y then pure m
  else
    let offset := y * v.vbeModeInfo.pitch + x * v.bytesPerPixel
    if v.vbeModeInfo.bpp = 32#32 then writeColor (v.backbuffer + offset) color 4 m
    else if v.vbeModeInfo.bpp = 24#32 then do
      let m ← writeByte (v.backbuffer + offset) ((color &&& 0xFF#32).setWidth 8) m
      let m ← writeByte (v.backbuffer + (offset + 1#32)) ((color >>> 8 &&& 0xFF#32).setWidth 8) m
      writeByte (v.backbuffer + (offset + 2#32)) ((color >>> 16 &&& 0xFF#32).setWidth 8) m
    else if v.vbeModeInfo.bpp = 16#32 then writeColor (v.backbuffer + offset) color 2 m
    else writeByte (v.backbuffer + offset) (color.setWidth 8) m

def vgaGetPixel (v : Vga) (x y : Word) (m : Mem) : Word :=
  if v.width ≤ x ∨ v.height ≤ y then 0#32
  else
    let offset := y * v.vbeModeInfo.pitch + x * v.bytesPerPixel
    let byte := fun i : Word => (m (v.backbuffer + (offset + i))).setWidth 32
    if v.vbeModeInfo.bpp = 32#32 then load32 m (v.backbuffer + offset)
    else if v.vbeModeInfo.bpp = 24#32 then byte 0#32 ||| byte 1#32 <<< 8 ||| byte 2#32 <<< 16
    else if v.vbeModeInfo.bpp = 16#32 then
      (m (v.backbuffer + offset + 1#32) ++ m (v.backbuffer + offset)).setWidth 32
    else byte 0#32

/-! ## The modes -/

/-- The modes of the four encodings whose rows fit into the pitch and whose picture fits
into memory. -/
structure VbeModeInfo.Usable (info : VbeModeInfo) : Prop where
  bpp : info.bpp = 8#32 ∨ info.bpp = 16#32 ∨ info.bpp = 24#32 ∨ info.bpp = 32#32
  pitch : info.width.toNat * info.bpp.toNat / 8 ≤ info.pitch.toNat
  size : info.pitch.toNat * info.height.toNat < 2 ^ 32

/-- A driver that draws in such a mode, with `n` bytes for a pixel. -/
structure Vga.Ready (v : Vga) (n : Nat) : Prop where
  bytes : 0 < n ∧ n ≤ 4
  bpp : v.vbeModeInfo.bpp = BitVec.ofNat 32 (8 * n)
  bytesPerPixel : v.bytesPerPixel.toNat = n
  height : v.height = v.vbeModeInfo.height
  pitch : v.width.toNat * n ≤ v.vbeModeInfo.pitch.toNat
  size : v.vbeModeInfo.pitch.toNat * v.vbeModeInfo.height.toNat < 2 ^ 32

theorem Vga.Ready.bits {v : Vga} {n : Nat} (hv : v.Ready n) :
    v.vbeModeInfo.bpp.toNat = 8 * n := by
  have hbytes := hv.bytes
  rw [hv.bpp, toNat_ofNat_of_lt (by omega)]

theorem vgaInit_ready {info : VbeModeInfo} {h h' : Heap} {v : Vga} (hmode : info.Usable)
    (hinit : vgaInit info h = some (v, h')) :
    v.vbeModeInfo = info ∧ v.width = info.width ∧ v.height = info.height ∧ ∃ n, v.Ready n := by
  obtain ⟨⟨p, _⟩, _, hv⟩ := Option.map_eq_some_iff.mp hinit
  cases hv
  refine ⟨rfl, rfl, rfl, ?_⟩
  obtain ⟨n, hbytes, hbpp⟩ : ∃ n, (0 < n ∧ n ≤ 4) ∧ info.bpp = BitVec.ofNat 32 (8 * n) := by
    rcases hmode.bpp with hbpp | hbpp | hbpp | hbpp
    · exact ⟨1, by decide, hbpp⟩
    · exact ⟨2, by decide, hbpp⟩
    · exact ⟨3, by decide, hbpp⟩
    · exact ⟨4, by decide, hbpp⟩
  have hbits : info.bpp.toNat = 8 * n := by rw [hbpp, toNat_ofNat_of_lt (by omega)]
  have hpitch := hmode.pitch
  refine ⟨n, hbytes, hbpp, ?_, rfl, ?_, hmode.size⟩
  · show (info.bpp / 8#32).toNat = n
    rw [BitVec.toNat_udiv, hbits]
    exact Nat.mul_div_cancel_left n (by decide)
  · rw [hbits, Nat.mul_left_comm, Nat.mul_div_cancel_left _ (by decide)] at hpitch
    exact hpitch

/-! ## The bytes of a pixel -/

section Bytes
variable {v : Vga} {n : Nat} {x y : Word}

def Vga.OnScreen (v : Vga) (x y : Word) : Prop := x < v.width ∧ y < v.height

/-- The screen of a mode. -/
theorem vgaInit_onScreen {info : VbeModeInfo} {h h' : Heap} (hmode : info.Usable)
    (hinit : vgaInit info h = some (v, h')) :
    v.OnScreen x y ↔ x < info.width ∧ y < info.height := by
  obtain ⟨_, hwidth, hheight, _⟩ := vgaInit_ready hmode hinit
  rw [Vga.OnScreen, hwidth, hheight]

theorem onScreen_iff : v.OnScreen x y ↔ ¬ (v.width ≤ x ∨ v.height ≤ y) := by
  rw [not_or, BitVec.not_le, BitVec.not_le]
  exact Iff.rfl

/-- The offset of a pixel in the buffer. -/
def pixelOffset (v : Vga) (n : Nat) (x y : Word) : Nat :=
  y.toNat * v.vbeModeInfo.pitch.toNat + x.toNat * n

/-- A pixel ends inside the buffer. -/
theorem pixelOffset_lt (hv : v.Ready n) (hon : v.OnScreen x y) :
    pixelOffset v n x y + n ≤ v.vbeModeInfo.pitch.toNat * v.vbeModeInfo.height.toNat := by
  have hx : (x.toNat + 1) * n ≤ v.width.toNat * n := Nat.mul_le_mul_right n hon.1
  have hy : (y.toNat + 1) * v.vbeModeInfo.pitch.toNat ≤
      v.vbeModeInfo.height.toNat * v.vbeModeInfo.pitch.toNat :=
    Nat.mul_le_mul_right _ (hv.height ▸ hon.2)
  have hpitch := hv.pitch
  rw [Nat.add_one_mul] at hx hy
  rw [pixelOffset, Nat.mul_comm v.vbeModeInfo.pitch.toNat]
  omega

/-- The bytes of two pixels are apart. -/
theorem pixelOffset_apart (hv : v.Ready n) {x' y' : Word} (hon : v.OnScreen x y)
    (hon' : v.OnScreen x' y') (hne : ¬ (x' = x ∧ y' = y)) :
    pixelOffset v n x y + n ≤ pixelOffset v n x' y' ∨
      pixelOffset v n x' y' + n ≤ pixelOffset v n x y := by
  have hrow : ∀ {x : Word}, x < v.width → x.toNat * n + n ≤ v.vbeModeInfo.pitch.toNat := by
    intro x hx
    rw [← Nat.add_one_mul]
    exact Nat.le_trans (Nat.mul_le_mul_right n hx) hv.pitch
  have hstep : ∀ {i j k : Nat}, i < j → i * k + k ≤ j * k := by
    intro i j k hlt
    rw [← Nat.add_one_mul]
    exact Nat.mul_le_mul_right k hlt
  have hx := hrow hon.1
  have hx' := hrow hon'.1
  unfold pixelOffset
  rcases Nat.lt_trichotomy y.toNat y'.toNat with hlt | heq | hgt
  · have hrows := hstep (k := v.vbeModeInfo.pitch.toNat) hlt
    exact .inl (by omega)
  · have hcolumn : x'.toNat ≠ x.toNat := fun hsame =>
      hne ⟨BitVec.eq_of_toNat_eq hsame, BitVec.eq_of_toNat_eq heq.symm⟩
    rw [heq]
    rcases Nat.lt_or_gt_of_ne hcolumn with hlt | hgt
    · have hcolumns := hstep (k := n) hlt
      exact .inr (by omega)
    · have hcolumns := hstep (k := n) hgt
      exact .inl (by omega)
  · have hrows := hstep (k := v.vbeModeInfo.pitch.toNat) hgt
    exact .inr (by omega)

theorem offset_toNat (hv : v.Ready n) (hon : v.OnScreen x y) :
    (y * v.vbeModeInfo.pitch + x * v.bytesPerPixel).toNat = pixelOffset v n x y := by
  have hlt := pixelOffset_lt hv hon
  have hsize := hv.size
  have hsum : pixelOffset v n x y < 2 ^ 32 := by omega
  rw [pixelOffset] at hsum ⊢
  rw [BitVec.toNat_add, BitVec.toNat_mul, BitVec.toNat_mul, hv.bytesPerPixel,
    Nat.mod_eq_of_lt (by omega : y.toNat * v.vbeModeInfo.pitch.toNat < 2 ^ 32),
    Nat.mod_eq_of_lt (by omega : x.toNat * n < 2 ^ 32), Nat.mod_eq_of_lt hsum]

theorem offset_eq (hv : v.Ready n) (hon : v.OnScreen x y) :
    y * v.vbeModeInfo.pitch + x * v.bytesPerPixel = BitVec.ofNat 32 (pixelOffset v n x y) := by
  rw [← offset_toNat hv hon, BitVec.ofNat_toNat, BitVec.setWidth_eq]

/-! ## The four encodings as one -/

theorem writeColor_eq (a color : Word) (n : Nat) (m : Mem) :
    writeColor a color n m =
      ⟨fill m a (fun i _ => colorByte color i) n,
        (List.range n).map fun i => a + BitVec.ofNat 32 i⟩ := by
  unfold writeColor
  induction n with
  | zero => rfl
  | succ n ih =>
    rw [List.range_succ, List.foldlM_append, ih, List.map_append]
    rfl

theorem colorByte_mask (color : Word) (i : Nat) :
    (color >>> (8 * i) &&& 0xFF#32).setWidth 8 = colorByte color i := by
  apply BitVec.eq_of_toNat_eq
  have hmask : (0xFF#32).toNat = 2 ^ 8 - 1 := rfl
  rw [colorByte, BitVec.toNat_setWidth, BitVec.toNat_setWidth, BitVec.toNat_and, hmask,
    Nat.and_two_pow_sub_one_eq_mod, Nat.mod_mod]

/-- The pixel is written as an integer of `n` bytes, in every mode. -/
theorem vgaSetPixel_eq (hv : v.Ready n) (hon : v.OnScreen x y) (color : Word) (m : Mem) :
    vgaSetPixel v x y color m =
      writeColor (v.backbuffer + BitVec.ofNat 32 (pixelOffset v n x y)) color n m := by
  have hbpp := hv.bpp
  rw [vgaSetPixel, if_neg (onScreen_iff.mp hon)]
  dsimp only
  rw [offset_eq hv hon, hbpp]
  generalize pixelOffset v n x y = offset
  obtain rfl | rfl | rfl | rfl : n = 1 ∨ n = 2 ∨ n = 3 ∨ n = 4 := by
    have := hv.bytes
    omega
  · rw [if_neg (by decide), if_neg (by decide), if_neg (by decide)]
    have hwrite : writeColor (v.backbuffer + BitVec.ofNat 32 offset) color 1 m =
        writeByte (v.backbuffer + BitVec.ofNat 32 offset + 0#32) (colorByte color 0) m >>= pure :=
      rfl
    have hbyte : colorByte color 0 = color.setWidth 8 := congrArg _ (BitVec.ushiftRight_zero color)
    rw [hwrite, bind_pure, BitVec.add_zero, hbyte]
  · rw [if_neg (by decide), if_neg (by decide), if_pos (by decide)]
  · rw [if_neg (by decide), if_pos (by decide)]
    have hwrite : writeColor (v.backbuffer + BitVec.ofNat 32 offset) color 3 m =
        writeByte (v.backbuffer + BitVec.ofNat 32 offset + 0#32) (colorByte color 0) m >>= fun m =>
          writeByte (v.backbuffer + BitVec.ofNat 32 offset + 1#32) (colorByte color 1) m >>= fun m =>
            writeByte (v.backbuffer + BitVec.ofNat 32 offset + 2#32) (colorByte color 2) m >>=
              pure := rfl
    have hbyte : (color &&& 0xFF#32).setWidth 8 = colorByte color 0 := by
      rw [← colorByte_mask, Nat.mul_zero, BitVec.ushiftRight_zero]
    have hbytes : ∀ i, (color >>> (8 * i) &&& 0xFF#32).setWidth 8 = colorByte color i :=
      colorByte_mask color
    rw [hwrite, BitVec.add_zero, hbyte, hbytes 1, hbytes 2, ← BitVec.add_assoc, ← BitVec.add_assoc]
    simp only [bind_pure]
  · rw [if_pos (by decide)]

/-- The integer of `n` bytes. -/
def bytesValue (byte : Nat → Byte) : Nat → Nat
  | 0 => 0
  | n + 1 => bytesValue byte n + (byte n).toNat * 2 ^ (8 * n)

theorem bytesValue_congr {byte byte' : Nat → Byte} {n : Nat} (h : ∀ i < n, byte i = byte' i) :
    bytesValue byte n = bytesValue byte' n := by
  induction n with
  | zero => rfl
  | succ n ih =>
    rw [bytesValue, bytesValue, h n (Nat.lt_succ_self n),
      ih fun i hi => h i (Nat.lt_succ_of_lt hi)]

theorem bytesValue_colorByte (color : Word) (n : Nat) :
    bytesValue (colorByte color) n = color.toNat % 2 ^ (8 * n) := by
  induction n with
  | zero => rw [bytesValue, Nat.mul_zero, Nat.pow_zero, Nat.mod_one]
  | succ n ih =>
    rw [bytesValue, ih, Nat.mul_succ, Nat.pow_add, Nat.mod_mul, colorByte, BitVec.toNat_setWidth,
      BitVec.toNat_ushiftRight, Nat.shiftRight_eq_div_pow, Nat.mul_comm (2 ^ (8 * n))]

/-- A byte above the bits of an integer. -/
theorem toNat_or_byte {low : Word} {b : Byte} {k : Nat} (hk : k + 8 ≤ 32)
    (hlow : low.toNat < 2 ^ k) :
    (low ||| b.setWidth 32 <<< k).toNat = low.toNat + b.toNat * 2 ^ k := by
  have hbits : b.toNat * 2 ^ k < 2 ^ 32 :=
    Nat.lt_of_lt_of_le (Nat.mul_lt_mul_of_pos_right b.isLt (Nat.two_pow_pos k))
      (by rw [← Nat.pow_add]; exact Nat.pow_le_pow_right (by decide) (by omega))
  rw [BitVec.toNat_or, BitVec.toNat_shiftLeft, BitVec.toNat_setWidth_of_le (by decide),
    Nat.shiftLeft_eq, Nat.mod_eq_of_lt hbits, Nat.or_comm, Nat.mul_comm,
    ← Nat.two_pow_add_eq_or_of_lt hlow, Nat.add_comm]

/-- The pixel is read as the integer of its bytes. -/
theorem vgaGetPixel_toNat (hv : v.Ready n) (hon : v.OnScreen x y) (m : Mem) :
    (vgaGetPixel v x y m).toNat =
      bytesValue (fun i => m (v.backbuffer + BitVec.ofNat 32 (pixelOffset v n x y + i))) n := by
  have hbpp := hv.bpp
  rw [vgaGetPixel, if_neg (onScreen_iff.mp hon)]
  dsimp only
  rw [offset_eq hv hon, hbpp]
  generalize pixelOffset v n x y = offset
  obtain ⟨b, hb⟩ : ∃ b : Nat → Byte,
      b = fun i => m (v.backbuffer + BitVec.ofNat 32 (offset + i)) := ⟨_, rfl⟩
  have hbyte : ∀ i, m (v.backbuffer + (BitVec.ofNat 32 offset + BitVec.ofNat 32 i)) = b i := by
    intro i
    rw [ofNat_add_ofNat, hb]
  have hbyte' : ∀ i, m (v.backbuffer + BitVec.ofNat 32 offset + BitVec.ofNat 32 i) = b i := by
    intro i
    rw [BitVec.add_assoc, hbyte]
  have hfirst : m (v.backbuffer + BitVec.ofNat 32 offset) = b 0 := by
    rw [← hbyte' 0, BitVec.add_zero]
  have hwiden : ∀ i, ((b i).setWidth 32).toNat = (b i).toNat := fun i =>
    BitVec.toNat_setWidth_of_le (by decide)
  rw [← hb]
  obtain rfl | rfl | rfl | rfl : n = 1 ∨ n = 2 ∨ n = 3 ∨ n = 4 := by
    have := hv.bytes
    omega
  · rw [if_neg (by decide), if_neg (by decide), if_neg (by decide), hbyte 0, hwiden]
    simp only [bytesValue, Nat.zero_add, Nat.mul_zero, Nat.pow_zero, Nat.mul_one]
  · rw [if_neg (by decide), if_neg (by decide), if_pos (by decide), hfirst, hbyte' 1,
      BitVec.toNat_setWidth_of_le (by decide), toNat_append_byte]
    simp only [bytesValue]
    omega
  · have hlow : ((b 0).setWidth 32 ||| (b 1).setWidth 32 <<< 8).toNat =
        (b 0).toNat + (b 1).toNat * 2 ^ 8 := by
      rw [toNat_or_byte (by decide) (by rw [hwiden]; exact (b 0).isLt), hwiden]
    have hlt : ((b 0).setWidth 32 ||| (b 1).setWidth 32 <<< 8).toNat < 2 ^ 16 := by
      have h0 := (b 0).isLt
      have h1 := (b 1).isLt
      rw [hlow]
      omega
    rw [if_neg (by decide), if_pos (by decide), hbyte 0, hbyte 1, hbyte 2,
      toNat_or_byte (by decide) hlt, hlow]
    simp only [bytesValue]
    omega
  · have hload : load32 m (v.backbuffer + BitVec.ofNat 32 offset) = b 3 ++ b 2 ++ b 1 ++ b 0 := by
      rw [← hbyte' 3, ← hbyte' 2, ← hbyte' 1, ← hfirst]
      rfl
    rw [if_pos (by decide), hload, toNat_append_byte, toNat_append_byte, toNat_append_byte]
    simp only [bytesValue]
    omega

end Bytes

/-! ## The laws -/

section Laws
variable {v : Vga} {n : Nat} {x y x' y' color : Word} {m : Mem}

theorem vgaSetPixel_off (hoff : ¬ v.OnScreen x y) : vgaSetPixel v x y color m = pure m :=
  if_pos (not_not.mp (mt onScreen_iff.mpr hoff))

/-- Every byte that is written is in the buffer. -/
theorem vgaSetPixel_all (hv : v.Ready n) :
    (vgaSetPixel v x y color m).All fun a =>
      ∃ k < v.vbeModeInfo.pitch.toNat * v.vbeModeInfo.height.toNat,
        a = v.backbuffer + BitVec.ofNat 32 k := by
  by_cases hon : v.OnScreen x y
  · have hend := pixelOffset_lt hv hon
    rw [vgaSetPixel_eq hv hon, writeColor_eq]
    intro a ha
    obtain ⟨i, hi, rfl⟩ := List.mem_map.mp ha
    have hlt := List.mem_range.mp hi
    exact ⟨pixelOffset v n x y + i, by omega, by rw [BitVec.add_assoc, ofNat_add_ofNat]⟩
  · rw [vgaSetPixel_off hon]
    exact all_pure m

theorem vgaGetPixel_set (hv : v.Ready n) (hon : v.OnScreen x y) :
    (vgaGetPixel v x y (vgaSetPixel v x y color m).value).toNat = color.toNat % 2 ^ (8 * n) := by
  have hbytes := hv.bytes
  rw [vgaGetPixel_toNat hv hon, vgaSetPixel_eq hv hon, writeColor_eq, ← bytesValue_colorByte]
  refine bytesValue_congr fun i hi => ?_
  rw [← ofNat_add_ofNat, ← BitVec.add_assoc]
  exact fill_apply (by omega) hi

theorem vgaGetPixel_off (hoff : ¬ v.OnScreen x y) : vgaGetPixel v x y m = 0#32 :=
  if_pos (not_not.mp (mt onScreen_iff.mpr hoff))

/-- Other pixels stay. -/
theorem vgaGetPixel_set_ne (hv : v.Ready n) (hne : ¬ (x' = x ∧ y' = y)) :
    vgaGetPixel v x' y' (vgaSetPixel v x y color m).value = vgaGetPixel v x' y' m := by
  by_cases hon' : v.OnScreen x' y'
  · by_cases hon : v.OnScreen x y
    · have hend := pixelOffset_lt hv hon
      have hend' := pixelOffset_lt hv hon'
      have hsize := hv.size
      have hapart := pixelOffset_apart hv hon hon' hne
      apply BitVec.eq_of_toNat_eq
      rw [vgaGetPixel_toNat hv hon', vgaGetPixel_toNat hv hon', vgaSetPixel_eq hv hon, writeColor_eq]
      refine bytesValue_congr fun i hi => fill_other fun j hj heq => ?_
      rw [BitVec.add_assoc, ofNat_add_ofNat, add_ofNat_inj (by omega) (by omega)] at heq
      omega
    · rw [vgaSetPixel_off hon]
      rfl
  · rw [vgaGetPixel_off hon', vgaGetPixel_off hon']

end Laws

/-- In every usable mode a pixel of the screen that is set is read back, modulo the bits of
the mode, all writes are to the buffer, the other pixels keep their values, and setting a
pixel outside the screen changes nothing. -/
theorem vga_pixel_laws {info : VbeModeInfo} {h h' : Heap} {v : Vga} (hmode : info.Usable)
    (hinit : vgaInit info h = some (v, h')) (x y color : Word) (m : Mem) :
    (x < info.width ∧ y < info.height →
      ((vgaSetPixel v x y color m).All fun a =>
        ∃ k < info.pitch.toNat * info.height.toNat, a = v.backbuffer + BitVec.ofNat 32 k) ∧
      (vgaGetPixel v x y (vgaSetPixel v x y color m).value).toNat =
        color.toNat % 2 ^ info.bpp.toNat ∧
      ∀ x' y', x' < info.width → y' < info.height → (x', y') ≠ (x, y) →
        vgaGetPixel v x' y' (vgaSetPixel v x y color m).value = vgaGetPixel v x' y' m) ∧
    (¬ (x < info.width ∧ y < info.height) → vgaSetPixel v x y color m = pure m) := by
  obtain ⟨hinfo, _, _, n, hv⟩ := vgaInit_ready hmode hinit
  have hbits : info.bpp.toNat = 8 * n := hinfo ▸ hv.bits
  rw [← vgaInit_onScreen hmode hinit, hbits, ← hinfo]
  refine ⟨fun hon => ⟨vgaSetPixel_all hv, vgaGetPixel_set hv hon, fun x' y' _ _ hne => ?_⟩,
    vgaSetPixel_off⟩
  exact vgaGetPixel_set_ne hv fun hsame => hne (Prod.ext hsame.1 hsame.2)

/-- 320 x 200 pixels of one byte. -/
def smallMode : VbeModeInfo := ⟨320#32, 200#32, 320#32, 8#32, 0xFD000000#32⟩

theorem smallMode_usable : smallMode.Usable := ⟨.inl rfl, by decide, by decide⟩

theorem vgaInit_smallMode : ∃ v h, vgaInit smallMode (heapInit fun _ => 0#8) = some (v, h) := by
  have hsize : 64000#32 ≠ 0#32 := by decide
  have hfit : firstFit (alignSize 64000#32).toNat [freshChunk] = some ([], freshChunk, []) := by decide
  obtain ⟨h, hk, _⟩ := kmalloc_some (heapInit_represents fun _ => 0#8) hsize hfit
  exact ⟨_, h, congrArg (Option.map _) hk⟩

/-- The pixel of the upper left corner. -/
theorem vga_pixel_laws_corner : ∃ v h,
    vgaInit smallMode (heapInit fun _ => 0#8) = some (v, h) ∧
      (vgaGetPixel v 0#32 0#32 (vgaSetPixel v 0#32 0#32 0x13F#32 fun _ => 0#8).value).toNat =
        0x3F := by
  obtain ⟨v, h, hinit⟩ := vgaInit_smallMode
  have hlaws := vga_pixel_laws smallMode_usable hinit 0#32 0#32 0x13F#32 fun _ => 0#8
  exact ⟨v, h, hinit, (hlaws.1 (by decide)).2.1⟩

end Zenix
