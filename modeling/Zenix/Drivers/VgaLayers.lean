import Zenix.Drivers.Lines
import Zenix.Lib.Layers
import Zenix.Mm.HeapSafety

/-!
# What the drawing functions paint (kernel/drivers/vga/vga.c)

Each drawing function paints a layer, and functions that are called one after the other
paint their layers over each other. `vga_swap_buffers` then shows the picture.

Results:
1. `vgaGetPixel_layer`: the pixels after the calls are those of the layer.
2. `layer_vgaFillRect`, `layer_vgaDrawRect`, `layer_diagonal`: the layers of shapes.
3. `shown_swap`: the frame buffer shows the back buffer.
4. `vgaInit_buffers`: after `vga_init` the two buffers are apart, or they are one.
-/

namespace Zenix
open ByteMemory FirstFit Logged

/-- What calls of `vga_set_pixel` paint. -/
def layer {α : Type} (d : Logged PixelCall α) : Layer (Word × Word) Word :=
  Layer.painted (fun p : PixelCall => (p.x, p.y)) PixelCall.color d.log

section Layers
variable {α β : Type}

theorem layer_pure (a : α) : layer (pure a) = Layer.empty := Layer.painted_nil ..

theorem layer_bind (x : Logged PixelCall α) (f : α → Logged PixelCall β) :
    layer (x >>= f) = (layer (f x.value)).overlay (layer x) := by
  rw [layer, log_bind, Layer.painted_append]
  rfl

theorem layer_forM {γ : Type} (f : γ → Logged PixelCall Unit) (cs : List γ) :
    layer (cs.forM f) = Layer.stack (cs.map fun c => layer (f c)) := by
  rw [layer, log_forM, Layer.painted_flatMap]
  rfl

/-- Calls with one colour. -/
theorem layer_eq_flat {d : Logged PixelCall α} {S : Word → Word → Prop} [∀ x y, Decidable (S x y)]
    {color : Word} (h : ∀ p, p ∈ d.log ↔ S p.x p.y ∧ p.color = color) :
    layer d = Layer.flat (fun p => S p.1 p.2) color := by
  refine Layer.painted_eq_flat _ _ (fun p hp => ((h p).mp hp).2) fun p => ⟨fun hp => ?_, ?_⟩
  · exact ⟨⟨p.1, p.2, color⟩, (h _).mpr ⟨hp, rfl⟩, rfl⟩
  · rintro ⟨q, hq, rfl⟩
    exact ((h q).mp hq).1

theorem vgaGetPixel_layer {v : Vga} {n : Nat} {px py : Word} (hv : v.Ready n)
    (hon : v.OnScreen px py) (d : Logged PixelCall α) (m : Mem) :
    (vgaGetPixel v px py (drawOn v d m)).toNat =
      ((layer d (px, py)).map fun c : Word => c.toNat % 2 ^ (8 * n)).getD
        (vgaGetPixel v px py m).toNat := by
  have hpoint : (fun p : PixelCall => decide ((p.x, p.y) = (px, py))) =
      fun p : PixelCall => decide (p.x = px ∧ p.y = py) := by
    funext p
    simp only [Prod.mk.injEq]
  rw [vgaGetPixel_drawOn hv hon, layer, Layer.painted, hpoint]
  cases d.log.reverse.find? fun p => p.x = px ∧ p.y = py with
  | none => rfl
  | some p => rfl

end Layers

/-! ## Shapes -/

instance (x y w h px py : Word) : Decidable (InRect x y w h px py) := by
  unfold InRect
  infer_instance

instance (x y w h px py : Word) : Decidable (OnOutline x y w h px py) := by
  unfold OnOutline
  infer_instance

/-- The points of a line of `k` steps to the right and down. -/
def OnDiagonal (x y : Word) (k : Nat) (px py : Word) : Prop :=
  ∃ i ∈ List.range (k + 1), px = x + BitVec.ofNat 32 i ∧ py = y + BitVec.ofNat 32 i

instance (x y : Word) (k : Nat) (px py : Word) : Decidable (OnDiagonal x y k px py) := by
  unfold OnDiagonal
  infer_instance

section Shapes
variable (x y w h color : Word)

theorem layer_vgaFillRect :
    layer (vgaFillRect x y w h color) = Layer.flat (fun p => InRect x y w h p.1 p.2) color :=
  layer_eq_flat fun _ => mem_vgaFillRect

theorem layer_vgaDrawRect :
    layer (vgaDrawRect x y w h color) = Layer.flat (fun p => OnOutline x y w h p.1 p.2) color :=
  layer_eq_flat fun _ => mem_vgaDrawRect

theorem layer_diagonal {k : Nat} (hpos : 0 < k) (hk : k < 2 ^ 31) (hx : x.toNat + k < 2 ^ 32)
    (hy : y.toNat + k < 2 ^ 32) :
    layer (vgaDrawLine x y (x + BitVec.ofNat 32 k) (y + BitVec.ofNat 32 k) color) =
      Layer.flat (fun p => OnDiagonal x y k p.1 p.2) color := by
  have hdiff : ∀ a : Word, a + BitVec.ofNat 32 k - a = BitVec.ofNat 32 k := by
    intro a
    rw [BitVec.add_comm, BitVec.add_sub_cancel]
  have hint : (BitVec.ofNat 32 k).toInt = k := by
    rw [BitVec.toInt_eq_toNat_of_lt, toNat_ofNat_of_lt (by omega)]
    rw [toNat_ofNat_of_lt (by omega)]
    omega
  have hsteps : vgaSteps (BitVec.ofNat 32 k) (BitVec.ofNat 32 k) = BitVec.ofNat 32 k := by
    have hup : (0#32).slt (BitVec.ofNat 32 k) := by
      rw [zero_slt_iff, hint]
      exact Int.natCast_pos.mpr hpos
    have hsame : ¬ (BitVec.ofNat 32 k).slt (BitVec.ofNat 32 k) := by
      rw [BitVec.slt_iff_toInt_lt]
      exact lt_irrefl _
    rw [vgaSteps, if_neg hsame, if_pos hup]
  have hone : ((k : ℤ) : ℚ) / (k : ℤ) = 1 := by
    rw [Int.cast_natCast]
    exact div_self (Nat.cast_ne_zero.mpr (Nat.ne_of_gt hpos))
  have hpoint : ∀ {a : Word} {i : Nat}, a.toNat + k < 2 ^ 32 → i ≤ k →
      toUint32 ((a.toNat : ℚ) + i * 1) = a + BitVec.ofNat 32 i := by
    intro a i ha hi
    have hcast : (a.toNat : ℚ) + i * 1 = ((a.toNat + i : ℕ) : ℚ) := by
      push_cast
      ring
    rw [hcast, toUint32, truncate_of_nonneg (Nat.cast_nonneg _), Int.floor_natCast,
      BitVec.ofInt_natCast, ← ofNat_add_ofNat, BitVec.ofNat_toNat, BitVec.setWidth_eq]
  refine layer_eq_flat fun p => ?_
  unfold vgaDrawLine
  dsimp only
  rw [hdiff, hdiff, hsteps, hint, hone, lineLoop_log, List.mem_map]
  have hcount : ((k : ℤ) + 1).toNat = k + 1 := rfl
  rw [hcount]
  constructor
  · rintro ⟨i, hi, rfl⟩
    have hle := Nat.le_of_lt_succ (List.mem_range.mp hi)
    exact ⟨⟨i, hi, hpoint hx hle, hpoint hy hle⟩, rfl⟩
  · obtain ⟨px, py, c⟩ := p
    rintro ⟨⟨i, hi, hpx, hpy⟩, hcolor⟩
    have hle := Nat.le_of_lt_succ (List.mem_range.mp hi)
    exact ⟨i, hi, by rw [hpoint hx hle, hpoint hy hle, ← hpx, ← hpy, ← hcolor]⟩

end Shapes

/-! ## The frame buffer -/

def vgaSwapBuffers (v : Vga) (m : Mem) : Mem :=
  if v.backbuffer = v.vbeModeInfo.framebuffer then m
  else
    let size := v.vbeModeInfo.pitch * v.vbeModeInfo.height
    fill m v.vbeModeInfo.framebuffer (fun i m => m (v.backbuffer + BitVec.ofNat 32 i)) size.toNat

/-- The frame buffer as a buffer of the driver: its pixels are those that are displayed. -/
def Vga.shown (v : Vga) : Vga := { v with backbuffer := v.vbeModeInfo.framebuffer }

/-- The two buffers are one, or they have no byte in common. -/
def Vga.Buffers (v : Vga) : Prop :=
  v.backbuffer = v.vbeModeInfo.framebuffer ∨
    ∀ i < v.vbeModeInfo.pitch.toNat * v.vbeModeInfo.height.toNat,
      ∀ j < v.vbeModeInfo.pitch.toNat * v.vbeModeInfo.height.toNat,
        v.backbuffer + BitVec.ofNat 32 i ≠ v.vbeModeInfo.framebuffer + BitVec.ofNat 32 j

section Swap
variable {v : Vga} {n : Nat}

theorem Vga.Ready.shown (hv : v.Ready n) : v.shown.Ready n :=
  ⟨hv.bytes, hv.bpp, hv.bytesPerPixel, hv.height, hv.pitch, hv.size⟩

theorem swap_byte (hv : v.Ready n) (hbuffers : v.Buffers) {i : Nat}
    (hi : i < v.vbeModeInfo.pitch.toNat * v.vbeModeInfo.height.toNat) (m : Mem) :
    vgaSwapBuffers v m (v.vbeModeInfo.framebuffer + BitVec.ofNat 32 i) =
      m (v.backbuffer + BitVec.ofNat 32 i) := by
  have hsize : (v.vbeModeInfo.pitch * v.vbeModeInfo.height).toNat =
      v.vbeModeInfo.pitch.toNat * v.vbeModeInfo.height.toNat := by
    rw [BitVec.toNat_mul, Nat.mod_eq_of_lt hv.size]
  unfold vgaSwapBuffers
  dsimp only
  rw [hsize]
  split
  next hsame => rw [hsame]
  next hne =>
    have hapart := hbuffers.resolve_left hne
    rw [fill_apply (Nat.le_of_lt hv.size) hi]
    exact fill_other fun j hj => hapart i hi j (Nat.lt_trans hj hi)

/-- What is displayed after `vga_swap_buffers` is the picture in the back buffer. -/
theorem shown_swap (hv : v.Ready n) (hbuffers : v.Buffers) (px py : Word) (m : Mem) :
    vgaGetPixel v.shown px py (vgaSwapBuffers v m) = vgaGetPixel v px py m := by
  by_cases hon : v.OnScreen px py
  · have hend := pixelOffset_lt hv hon
    apply BitVec.eq_of_toNat_eq
    rw [vgaGetPixel_toNat hv hon, vgaGetPixel_toNat hv.shown hon]
    exact bytesValue_congr fun i hi =>
      swap_byte hv hbuffers (Nat.lt_of_lt_of_le (Nat.add_lt_add_left hi _) hend) m
  · rw [vgaGetPixel_off hon, @vgaGetPixel_off v.shown px py _ hon]

/-- The picture in the back buffer stays. -/
theorem back_swap (hv : v.Ready n) (hbuffers : v.Buffers) (px py : Word) (m : Mem) :
    vgaGetPixel v px py (vgaSwapBuffers v m) = vgaGetPixel v px py m := by
  by_cases hon : v.OnScreen px py
  · have hend := pixelOffset_lt hv hon
    have hsize : (v.vbeModeInfo.pitch * v.vbeModeInfo.height).toNat =
        v.vbeModeInfo.pitch.toNat * v.vbeModeInfo.height.toNat := by
      rw [BitVec.toNat_mul, Nat.mod_eq_of_lt hv.size]
    apply BitVec.eq_of_toNat_eq
    rw [vgaGetPixel_toNat hv hon, vgaGetPixel_toNat hv hon]
    refine bytesValue_congr fun i hi => ?_
    unfold vgaSwapBuffers
    dsimp only
    rw [hsize]
    split
    next => rfl
    next hne =>
      exact fill_other fun j hj =>
        hbuffers.resolve_left hne _ (Nat.lt_of_lt_of_le (Nat.add_lt_add_left hi _) hend) j hj
  · rw [vgaGetPixel_off hon, vgaGetPixel_off hon]

/-- The frame buffer has to be outside the heap. -/
theorem vgaInit_buffers {info : VbeModeInfo} {h h' : Heap} {v : Vga} {cs : List Chunk}
    (hmode : info.Usable) (hr : Represents h cs) (hinit : vgaInit info h = some (v, h'))
    (hend : info.framebuffer.toNat + info.pitch.toNat * info.height.toNat ≤ 2 ^ 32)
    (houtside : info.framebuffer.toNat + info.pitch.toNat * info.height.toNat ≤ 0x400000 ∨
      0x800000 ≤ info.framebuffer.toNat) : v.Buffers := by
  obtain ⟨⟨p, _⟩, hk, hv⟩ := Option.map_eq_some_iff.mp hinit
  cases hv
  have hsize : (info.pitch * info.height).toNat = info.pitch.toNat * info.height.toNat := by
    rw [BitVec.toNat_mul, Nat.mod_eq_of_lt hmode.size]
  rcases kmalloc_cases hr hk with ⟨hp, _⟩ | ⟨pre, c, post, hcs, _, hfits, _, hp, hpa, _⟩
  · exact .inl (if_pos hp)
  · refine .inr fun i hi j hj heq => ?_
    have hfill := hr.fills
    have hi : i < info.pitch.toNat * info.height.toNat := hi
    have hj : j < info.pitch.toNat * info.height.toNat := hj
    have hround := le_alignSize (n := info.pitch * info.height) (by rw [hsize]; omega)
    rw [hcs, span_append, span] at hfill
    rw [hsize] at hround
    have hback : (p + BitVec.ofNat 32 i).toNat = p.toNat + i := toNat_add_ofNat (by omega)
    have hfront : (info.framebuffer + BitVec.ofNat 32 j).toNat = info.framebuffer.toNat + j :=
      toNat_add_ofNat (by omega)
    have haddr : (p + BitVec.ofNat 32 i).toNat = (info.framebuffer + BitVec.ofNat 32 j).toNat := by
      rw [← heq]
      exact congrArg (fun a : Word => (a + BitVec.ofNat 32 i).toNat) (if_neg hp).symm
    omega

end Swap

end Zenix
