import Zenix.Lib.AccessLog
import Zenix.Lib.Memory
import Zenix.Lib.Strided

/-!
# The framebuffer (kernel/drivers/video/gop_fb.c)

`gop_fb_init` takes the framebuffer from the boot loader, and the drawing
functions store pixels of four bytes, `pitch / 4` pixels to a row. `gop_fb_init`
looks at neither the pitch nor the depth.

Results:
1. `mem_gopClear_log`, `mem_gopPutpixel_log`: the cells that are written.
2. `writesLogged_clear`, `writesLogged_putpixel`: nothing else is.
3. `gopDrawRect_all`: a rectangle is written as its pixels are.
4. `framebuffer_safe_iff`: when the stores stay inside the framebuffer and no two
   pixels share a cell.
5. `rows_overlap`: a mode of 24 bits per pixel in which two pixels do.
-/

namespace Zenix
open ByteMemory

/-! ## The functions -/

/-- The fields of `multiboot_info_t` that `gop_fb_init` reads. -/
structure FramebufferInfo where
  flags : Word
  framebufferAddr : BitVec 64
  framebufferPitch : Word
  framebufferWidth : Word
  framebufferHeight : Word
  framebufferBpp : Byte
  framebufferType : Byte

/-- `gop_fb_t`. -/
structure GopFb where
  framebuffer : Word
  width : Word
  height : Word
  pitch : Word
  bpp : Byte
  initialized : Word

def MULTIBOOT_FLAG_FRAMEBUFFER : Word := 0x1000#32

/-- `gop_fb_init`. The address is cut down to 32 bits. -/
def gopFbInit (mbi : FramebufferInfo) (fb : GopFb) : Int × GopFb :=
  if mbi.flags &&& MULTIBOOT_FLAG_FRAMEBUFFER = 0#32 then (-1, fb)
  else if mbi.framebufferType ≠ 1#8 then (-1, fb)
  else
    let fb := { fb with
      framebuffer := mbi.framebufferAddr.setWidth 32
      width := mbi.framebufferWidth
      height := mbi.framebufferHeight
      pitch := mbi.framebufferPitch
      bpp := mbi.framebufferBpp }
    if fb.framebuffer = 0#32 ∨ fb.width = 0#32 ∨ fb.height = 0#32 then (-1, fb)
    else (0, { fb with initialized := 1#32 })

/-- `fb.framebuffer[i] = color`. The log has the address of the cell. -/
def storePixel (fb : GopFb) (i color : Word) (m : Mem) : Logged Word Mem := do
  let cell := fb.framebuffer + 4#32 * i
  Logged.touch cell
  pure (store32 m cell color)

/-- The loop of `gop_clear` with `left` rounds left. -/
def clearLoop (fb : GopFb) (color : Word) : Nat → Word → Mem → Logged Word Mem
  | 0, _, m => pure m
  | left + 1, i, m => do
      let m ← storePixel fb i color m
      clearLoop fb color left (i + 1#32) m

def gopClear (fb : GopFb) (color : Word) (m : Mem) : Logged Word Mem :=
  if fb.initialized = 0#32 then pure m
  else
    let pixels := fb.pitch / 4#32 * fb.height
    clearLoop fb color pixels.toNat 0#32 m

def gopPutpixel (fb : GopFb) (x y color : Word) (m : Mem) : Logged Word Mem :=
  if fb.initialized = 0#32 then pure m
  else if fb.width ≤ x ∨ fb.height ≤ y then pure m
  else storePixel fb (y * (fb.pitch / 4#32) + x) color m

/-- The inner loop of `gop_draw_rect` with `left` rounds left. -/
def drawRow (fb : GopFb) (x y color : Word) : Nat → Word → Mem → Logged Word Mem
  | 0, _, m => pure m
  | left + 1, dx, m => do
      let m ← gopPutpixel fb (x + dx) y color m
      drawRow fb x y color left (dx + 1#32) m

/-- The outer loop. -/
def drawRows (fb : GopFb) (x y w color : Word) : Nat → Word → Mem → Logged Word Mem
  | 0, _, m => pure m
  | left + 1, dy, m => do
      let m ← drawRow fb x (y + dy) color w.toNat 0#32 m
      drawRows fb x y w color left (dy + 1#32) m

def gopDrawRect (fb : GopFb) (x y w h color : Word) (m : Mem) : Logged Word Mem :=
  drawRows fb x y w color h.toNat 0#32 m

/-! ## The property -/

/-- Byte `b` belongs to the four bytes of the cell at `a`. -/
def InCell (a b : Word) : Prop := (b - a).toNat < 4

instance (a b : Word) : Decidable (InCell a b) := inferInstanceAs (Decidable (_ < _))

/-- The byte is in `[framebuffer_addr, framebuffer_addr + pitch * height)`. -/
def InFramebuffer (mbi : FramebufferInfo) (b : Word) : Prop :=
  mbi.framebufferAddr.toNat ≤ b.toNat ∧
    b.toNat < mbi.framebufferAddr.toNat + mbi.framebufferPitch.toNat * mbi.framebufferHeight.toNat

/-- The framebuffer lies below `2^32`. -/
def BelowFourGigabytes (mbi : FramebufferInfo) : Prop :=
  mbi.framebufferAddr.toNat + mbi.framebufferPitch.toNat * mbi.framebufferHeight.toNat ≤ 2 ^ 32

instance (mbi : FramebufferInfo) : Decidable (BelowFourGigabytes mbi) :=
  inferInstanceAs (Decidable (_ ≤ _))

def OnScreen (mbi : FramebufferInfo) (x y : Word) : Prop :=
  x < mbi.framebufferWidth ∧ y < mbi.framebufferHeight

/-- The drawing functions write to the framebuffer only, if it lies below `2^32`. -/
def WritesInside (mbi : FramebufferInfo) (fb : GopFb) : Prop :=
  (∀ color m, (gopClear fb color m).All fun a => ∀ b, InCell a b → InFramebuffer mbi b) ∧
    ∀ x y color m, (gopPutpixel fb x y color m).All fun a => ∀ b, InCell a b → InFramebuffer mbi b

/-- Two pixels of the screen have no byte in common. -/
def PixelsDisjoint (mbi : FramebufferInfo) (fb : GopFb) : Prop :=
  ∀ x y x' y' color color' m m', OnScreen mbi x y → OnScreen mbi x' y' → (x, y) ≠ (x', y') →
    ∀ a ∈ (gopPutpixel fb x y color m).log, ∀ a' ∈ (gopPutpixel fb x' y' color' m').log,
      ∀ b, ¬ (InCell a b ∧ InCell a' b)

def FramebufferSafe (mbi : FramebufferInfo) (fb : GopFb) : Prop :=
  (BelowFourGigabytes mbi → WritesInside mbi fb) ∧ PixelsDisjoint mbi fb

theorem inCell_self (a : Word) : InCell a a := by
  unfold InCell
  rw [BitVec.sub_self]
  decide

/-! ## The cells that are written -/

theorem log_storePixel (fb : GopFb) (i color : Word) (m : Mem) :
    (storePixel fb i color m).log = [fb.framebuffer + 4#32 * i] := rfl

theorem mem_clearLoop_log {fb : GopFb} {color a : Word} {left : Nat} {i : Word} {m : Mem} :
    a ∈ (clearLoop fb color left i m).log ↔
      ∃ k < left, a = fb.framebuffer + 4#32 * (i + BitVec.ofNat 32 k) := by
  induction left generalizing i m with
  | zero =>
    unfold clearLoop
    rw [Logged.log_pure]
    exact ⟨fun h => absurd h List.not_mem_nil, fun ⟨k, hk, _⟩ => absurd hk (Nat.not_lt_zero k)⟩
  | succ left ih =>
    unfold clearLoop
    rw [Logged.log_bind, log_storePixel, List.singleton_append, List.mem_cons, ih]
    have hnext : ∀ k, i + 1#32 + BitVec.ofNat 32 k = i + BitVec.ofNat 32 (k + 1) := by
      intro k
      rw [Nat.add_comm k 1, BitVec.ofNat_add, BitVec.add_assoc]
    constructor
    · rintro (rfl | ⟨k, hk, rfl⟩)
      · exact ⟨0, Nat.succ_pos left, by rw [BitVec.add_zero]⟩
      · exact ⟨k + 1, Nat.succ_lt_succ hk, by rw [hnext]⟩
    · rintro ⟨k, hk, rfl⟩
      cases k with
      | zero => exact Or.inl (by rw [BitVec.add_zero])
      | succ k => exact Or.inr ⟨k, Nat.lt_of_succ_lt_succ hk, by rw [hnext]⟩

theorem mem_gopClear_log {fb : GopFb} {color a : Word} {m : Mem} (hinit : fb.initialized ≠ 0#32) :
    a ∈ (gopClear fb color m).log ↔
      ∃ i : Word, i < fb.pitch / 4#32 * fb.height ∧ a = fb.framebuffer + 4#32 * i := by
  unfold gopClear
  rw [if_neg hinit, mem_clearLoop_log]
  constructor
  · rintro ⟨k, hk, rfl⟩
    have hlt := (fb.pitch / 4#32 * fb.height).isLt
    refine ⟨BitVec.ofNat 32 k, ?_, by rw [BitVec.zero_add]⟩
    rw [BitVec.lt_def, toNat_ofNat_of_lt (by omega)]
    exact hk
  · rintro ⟨i, hi, rfl⟩
    exact ⟨i.toNat, hi, by rw [BitVec.zero_add, BitVec.ofNat_toNat, BitVec.setWidth_eq]⟩

theorem mem_gopPutpixel_log {fb : GopFb} {x y color a : Word} {m : Mem}
    (hinit : fb.initialized ≠ 0#32) :
    a ∈ (gopPutpixel fb x y color m).log ↔
      (x < fb.width ∧ y < fb.height) ∧
        a = fb.framebuffer + 4#32 * (y * (fb.pitch / 4#32) + x) := by
  unfold gopPutpixel
  rw [if_neg hinit]
  split
  · next h =>
    rw [Logged.log_pure]
    refine ⟨fun h => absurd h List.not_mem_nil, fun ⟨⟨hx, hy⟩, _⟩ => ?_⟩
    cases h with
    | inl h => exact absurd hx (BitVec.not_lt.mpr h)
    | inr h => exact absurd hy (BitVec.not_lt.mpr h)
  · next h =>
    rw [not_or, BitVec.not_le, BitVec.not_le] at h
    rw [log_storePixel, List.mem_singleton]
    exact ⟨fun ha => ⟨h, ha⟩, fun ha => ha.2⟩

/-! ## Nothing else is written -/

/-- The function changes no byte outside the cells that it logs. -/
def WritesLogged (f : Mem → Logged Word Mem) : Prop :=
  ∀ m b, (∀ a ∈ (f m).log, ¬ InCell a b) → (f m).value b = m b

theorem store32_off_cell {m : Mem} {a b v : Word} (h : ¬ InCell a b) : store32 m a v b = m b := by
  unfold InCell at h
  have h0 : b ≠ a := by rintro rfl; bv_omega
  have h1 : b ≠ a + 1 := by rintro rfl; bv_omega
  have h2 : b ≠ a + 2 := by rintro rfl; bv_omega
  have h3 : b ≠ a + 3 := by rintro rfl; bv_omega
  unfold store32
  rw [if_neg h0, if_neg h1, if_neg h2, if_neg h3]

theorem WritesLogged.pure : WritesLogged fun m => Pure.pure m := fun _ _ _ => rfl

theorem WritesLogged.bind {f g : Mem → Logged Word Mem} (hf : WritesLogged f)
    (hg : WritesLogged g) : WritesLogged fun m => f m >>= g := by
  intro m b h
  rw [Logged.log_bind] at h
  rw [Logged.value_bind, hg _ b fun a ha => h a (List.mem_append_right _ ha),
    hf m b fun a ha => h a (List.mem_append_left _ ha)]

theorem writesLogged_storePixel (fb : GopFb) (i color : Word) :
    WritesLogged (storePixel fb i color) := by
  intro m b h
  exact store32_off_cell (h _ (List.mem_singleton.mpr rfl))

theorem writesLogged_clear (fb : GopFb) (color : Word) : WritesLogged (gopClear fb color) := by
  have hloop : ∀ left i, WritesLogged (clearLoop fb color left i) := by
    intro left
    induction left with
    | zero => exact fun _ => WritesLogged.pure
    | succ left ih => exact fun i => (writesLogged_storePixel fb i color).bind (ih (i + 1#32))
  intro m b h
  unfold gopClear at h ⊢
  split
  · rfl
  · next hinit =>
    rw [if_neg hinit] at h
    exact hloop _ _ m b h

theorem writesLogged_putpixel (fb : GopFb) (x y color : Word) :
    WritesLogged (gopPutpixel fb x y color) := by
  intro m b h
  unfold gopPutpixel at h ⊢
  split
  · rfl
  · next hinit =>
    rw [if_neg hinit] at h
    split
    · rfl
    · next hon =>
      rw [if_neg hon] at h
      exact writesLogged_storePixel fb _ color m b h

/-- `gop_draw_rect` writes what `gop_putpixel` writes. -/
theorem gopDrawRect_all {P : Word → Prop} {fb : GopFb} {color : Word}
    (hP : ∀ x y m, (gopPutpixel fb x y color m).All P) (x y w h : Word) (m : Mem) :
    (gopDrawRect fb x y w h color m).All P := by
  have hrow : ∀ y left dx m, (drawRow fb x y color left dx m).All P := by
    intro y left
    induction left with
    | zero => exact fun _ m => Logged.all_pure m
    | succ left ih => exact fun dx m => (hP (x + dx) y m).bind (ih (dx + 1#32) _)
  have hrows : ∀ left dy m, (drawRows fb x y w color left dy m).All P := by
    intro left
    induction left with
    | zero => exact fun _ m => Logged.all_pure m
    | succ left ih => exact fun dy m => (hrow (y + dy) w.toNat 0#32 m).bind (ih (dy + 1#32) _)
  exact hrows h.toNat 0#32 m

/-! ## What `gop_fb_init` accepts -/

/-- The framebuffer that `gop_fb_init` has accepted. -/
structure Accepted (mbi : FramebufferInfo) (fb : GopFb) : Prop where
  framebuffer : fb.framebuffer = mbi.framebufferAddr.setWidth 32
  width : fb.width = mbi.framebufferWidth
  height : fb.height = mbi.framebufferHeight
  pitch : fb.pitch = mbi.framebufferPitch
  initialized : fb.initialized ≠ 0#32
  nonnull : fb.framebuffer ≠ 0#32
  wide : 0 < mbi.framebufferWidth.toNat
  high : 0 < mbi.framebufferHeight.toNat

theorem gopFbInit_accepted {mbi : FramebufferInfo} {fb fb₀ : GopFb}
    (h : gopFbInit mbi fb₀ = (0, fb)) : Accepted mbi fb := by
  unfold gopFbInit at h
  split at h
  · cases h
  · split at h
    · cases h
    · dsimp only at h
      split at h
      · cases h
      · next hvalid =>
        rw [not_or, not_or] at hvalid
        obtain ⟨hnull, hwidth, hheight⟩ := hvalid
        cases h
        refine ⟨rfl, rfl, rfl, rfl, ?_, hnull, ?_, ?_⟩
        · show (1#32 : Word) ≠ 0#32
          decide
        · exact Nat.pos_of_ne_zero fun hz => hwidth (BitVec.eq_of_toNat_eq hz)
        · exact Nat.pos_of_ne_zero fun hz => hheight (BitVec.eq_of_toNat_eq hz)

/-! ## Pixels that share a cell -/

/-- Two cells of an array of words meet exactly when they are the same cell; the
top two bits of the index are lost. -/
theorem cells_meet_iff {base i j : Word} :
    (∃ b, InCell (base + 4#32 * i) b ∧ InCell (base + 4#32 * j) b) ↔
      i.toNat % 2 ^ 30 = j.toNat % 2 ^ 30 := by
  unfold InCell
  constructor
  · rintro ⟨b, hi, hj⟩
    bv_omega
  · intro h
    refine ⟨base + 4#32 * i, by bv_omega, by bv_omega⟩

/-- The bytes of a cell that does not reach over the end of memory. -/
theorem cell_bounds {base i b : Word} (h : base.toNat + 4 * i.toNat + 4 ≤ 2 ^ 32)
    (hb : InCell (base + 4#32 * i) b) :
    base.toNat + 4 * i.toNat ≤ b.toNat ∧ b.toNat < base.toNat + 4 * i.toNat + 4 := by
  unfold InCell at hb
  have hcell : (base + 4#32 * i).toNat = base.toNat + 4 * i.toNat := by
    rw [BitVec.toNat_add, BitVec.toNat_mul, show (4#32).toNat = 4 from rfl]
    omega
  bv_omega

theorem toNat_index (x y q : Word) :
    (y * q + x).toNat % 2 ^ 30 = (y.toNat * q.toNat + x.toNat) % 2 ^ 30 := by
  rw [BitVec.toNat_add, BitVec.toNat_mul]
  omega

section Accepted
variable {mbi : FramebufferInfo} {fb : GopFb} (ha : Accepted mbi fb)
include ha

theorem Accepted.stride : (fb.pitch / 4#32).toNat = mbi.framebufferPitch.toNat / 4 := by
  rw [ha.pitch, BitVec.toNat_udiv]
  rfl

/-- The cell of a pixel on the screen. -/
theorem Accepted.putpixel_log {x y color a : Word} {m : Mem} :
    a ∈ (gopPutpixel fb x y color m).log ↔
      OnScreen mbi x y ∧ a = fb.framebuffer + 4#32 * (y * (fb.pitch / 4#32) + x) := by
  rw [mem_gopPutpixel_log ha.initialized, ha.width, ha.height]
  rfl

/-- The indices of two cells that meet are the same modulo `2^30`. -/
theorem Accepted.pixels_meet_iff (x y x' y' : Word) :
    (∃ b, InCell (fb.framebuffer + 4#32 * (y * (fb.pitch / 4#32) + x)) b ∧
        InCell (fb.framebuffer + 4#32 * (y' * (fb.pitch / 4#32) + x')) b) ↔
      (y.toNat * (mbi.framebufferPitch.toNat / 4) + x.toNat) % 2 ^ 30 =
        (y'.toNat * (mbi.framebufferPitch.toNat / 4) + x'.toNat) % 2 ^ 30 := by
  rw [cells_meet_iff, toNat_index, toNat_index, ha.stride]

theorem Accepted.pixelsDisjoint_iff :
    PixelsDisjoint mbi fb ↔ RowsApart (2 ^ 30) (mbi.framebufferPitch.toNat / 4)
      mbi.framebufferWidth.toNat mbi.framebufferHeight.toNat := by
  rw [← strided_injective_iff (by decide) ha.high]
  constructor
  · intro hdis x y x' y' hx hy hx' hy' hmod
    have hbx := mbi.framebufferWidth.isLt
    have hby := mbi.framebufferHeight.isLt
    have hnat : ∀ {k n : Nat}, k < n → n < 2 ^ 32 → (BitVec.ofNat 32 k).toNat = k :=
      fun hk hn => toNat_ofNat_of_lt (hk.trans hn)
    have hon : OnScreen mbi (BitVec.ofNat 32 x) (BitVec.ofNat 32 y) := by
      refine ⟨BitVec.lt_def.mpr ?_, BitVec.lt_def.mpr ?_⟩
      · rwa [hnat hx hbx]
      · rwa [hnat hy hby]
    have hon' : OnScreen mbi (BitVec.ofNat 32 x') (BitVec.ofNat 32 y') := by
      refine ⟨BitVec.lt_def.mpr ?_, BitVec.lt_def.mpr ?_⟩
      · rwa [hnat hx' hbx]
      · rwa [hnat hy' hby]
    have hmeet := ha.pixels_meet_iff (BitVec.ofNat 32 x) (BitVec.ofNat 32 y) (BitVec.ofNat 32 x')
      (BitVec.ofNat 32 y')
    rw [hnat hx hbx, hnat hy hby, hnat hx' hbx, hnat hy' hby] at hmeet
    obtain ⟨b, hb⟩ := hmeet.mpr hmod
    by_contra hne
    refine hdis _ _ _ _ 0#32 0#32 (fun _ => 0#8) (fun _ => 0#8) hon hon' ?_ _
      (ha.putpixel_log.mpr ⟨hon, rfl⟩) _ (ha.putpixel_log.mpr ⟨hon', rfl⟩) b hb
    intro heq
    rw [Prod.mk.injEq, ofNat_inj (hx.trans hbx) (hx'.trans hbx),
      ofNat_inj (hy.trans hby) (hy'.trans hby)] at heq
    exact hne heq
  · intro hinj x y x' y' color color' m m' hon hon' hne a hmem a' hmem' b hb
    obtain ⟨_, rfl⟩ := ha.putpixel_log.mp hmem
    obtain ⟨_, rfl⟩ := ha.putpixel_log.mp hmem'
    obtain ⟨hx, hy⟩ := hinj _ _ _ _ hon.1 hon.2 hon'.1 hon'.2 ((ha.pixels_meet_iff _ _ _ _).mp ⟨b, hb⟩)
    exact hne (Prod.ext (BitVec.eq_of_toNat_eq hx) (BitVec.eq_of_toNat_eq hy))

/-! ## Stores outside the framebuffer -/

/-- Below `2^32` the address is not cut down, and no index of the screen wraps. -/
theorem Accepted.below (hbelow : BelowFourGigabytes mbi) :
    fb.framebuffer.toNat = mbi.framebufferAddr.toNat ∧ 0 < fb.framebuffer.toNat ∧
      4 * (mbi.framebufferHeight.toNat * (mbi.framebufferPitch.toNat / 4)) ≤
        mbi.framebufferPitch.toNat * mbi.framebufferHeight.toNat := by
  have hpos : fb.framebuffer.toNat ≠ 0 := fun hz => ha.nonnull (BitVec.eq_of_toNat_eq hz)
  have haddr : fb.framebuffer.toNat = mbi.framebufferAddr.toNat % 2 ^ 32 := by
    rw [ha.framebuffer, BitVec.toNat_setWidth]
  have hrows : 4 * (mbi.framebufferHeight.toNat * (mbi.framebufferPitch.toNat / 4)) ≤
      mbi.framebufferPitch.toNat * mbi.framebufferHeight.toNat := by
    calc 4 * (mbi.framebufferHeight.toNat * (mbi.framebufferPitch.toNat / 4))
        = mbi.framebufferHeight.toNat * (4 * (mbi.framebufferPitch.toNat / 4)) :=
          Nat.mul_left_comm _ _ _
      _ ≤ mbi.framebufferHeight.toNat * mbi.framebufferPitch.toNat :=
          Nat.mul_le_mul_left _ (Nat.mul_div_le _ 4)
      _ = mbi.framebufferPitch.toNat * mbi.framebufferHeight.toNat := Nat.mul_comm _ _
  unfold BelowFourGigabytes at hbelow
  exact ⟨by omega, by omega, hrows⟩

/-- A cell of the rows lies in the framebuffer. -/
theorem Accepted.cell_inside (hbelow : BelowFourGigabytes mbi) {i b : Word}
    (hi : i.toNat < mbi.framebufferHeight.toNat * (mbi.framebufferPitch.toNat / 4))
    (hb : InCell (fb.framebuffer + 4#32 * i) b) : InFramebuffer mbi b := by
  obtain ⟨haddr, _, hrows⟩ := ha.below hbelow
  unfold BelowFourGigabytes at hbelow
  obtain ⟨hlo, hhi⟩ := cell_bounds (by omega) hb
  exact ⟨by omega, by omega⟩

theorem Accepted.writesInside (hbelow : BelowFourGigabytes mbi)
    (hfit : 4 * mbi.framebufferWidth.toNat ≤ mbi.framebufferPitch.toNat) : WritesInside mbi fb := by
  obtain ⟨_, _, hrows⟩ := ha.below hbelow
  have hstride := ha.stride
  have hlimit := hbelow
  unfold BelowFourGigabytes at hlimit
  refine ⟨fun color m a hmem b hb => ?_, fun x y color m a hmem b hb => ?_⟩
  · obtain ⟨i, hi, rfl⟩ := (mem_gopClear_log ha.initialized).mp hmem
    refine ha.cell_inside hbelow ?_ hb
    rw [BitVec.lt_def, BitVec.toNat_mul, hstride, ha.height, Nat.mul_comm,
      Nat.mod_eq_of_lt (by omega)] at hi
    exact hi
  · obtain ⟨⟨hx, hy⟩, rfl⟩ := ha.putpixel_log.mp hmem
    refine ha.cell_inside hbelow ?_ hb
    have hlt := strided_lt (q := mbi.framebufferPitch.toNat / 4) (by omega) hx hy
    rw [BitVec.toNat_add, BitVec.toNat_mul, hstride]
    omega

/-- With one row only, the first pixel behind the pitch is stored behind the
framebuffer. -/
theorem Accepted.not_writesInside (hbelow : BelowFourGigabytes mbi)
    (hone : mbi.framebufferHeight.toNat = 1)
    (hwide : mbi.framebufferPitch.toNat < 4 * mbi.framebufferWidth.toNat) :
    ¬ WritesInside mbi fb := by
  rintro ⟨_, hput⟩
  obtain ⟨haddr, hpos, _⟩ := ha.below hbelow
  have hstride := ha.stride
  unfold BelowFourGigabytes at hbelow
  rw [hone, Nat.mul_one] at hbelow
  have hon : OnScreen mbi (fb.pitch / 4#32) 0#32 := by
    refine ⟨BitVec.lt_def.mpr ?_, BitVec.lt_def.mpr ?_⟩
    · omega
    · rw [hone]
      decide
  have hcell := hput _ _ 0#32 (fun _ => 0#8) _ (ha.putpixel_log.mpr ⟨hon, rfl⟩)
  rw [BitVec.zero_mul, BitVec.zero_add] at hcell
  have hbyte : InCell (fb.framebuffer + 4#32 * (fb.pitch / 4#32))
      (fb.framebuffer + 4#32 * (fb.pitch / 4#32) + 3#32) := by
    unfold InCell
    bv_omega
  obtain ⟨hlo, hhi⟩ := hcell _ hbyte
  rw [hone, Nat.mul_one] at hhi
  have htop : (fb.framebuffer + 4#32 * (fb.pitch / 4#32) + 3#32).toNat =
      (fb.framebuffer.toNat + 4 * (mbi.framebufferPitch.toNat / 4) + 3) % 2 ^ 32 := by
    rw [← hstride]
    bv_omega
  have hpitch := mbi.framebufferPitch.isLt
  omega

end Accepted

/-- The drawing functions stay inside the framebuffer and keep the pixels apart
exactly when the pixels of a row fit into the pitch. Where the framebuffer does
not lie below `2^32`, the pixels are apart exactly when the rows are, modulo the
`2^30` cells that there are. -/
theorem framebuffer_safe_iff {mbi : FramebufferInfo} {fb fb₀ : GopFb}
    (h : gopFbInit mbi fb₀ = (0, fb)) :
    FramebufferSafe mbi fb ↔
      (BelowFourGigabytes mbi ∧ 4 * mbi.framebufferWidth.toNat ≤ mbi.framebufferPitch.toNat) ∨
        (¬ BelowFourGigabytes mbi ∧ RowsApart (2 ^ 30) (mbi.framebufferPitch.toNat / 4)
          mbi.framebufferWidth.toNat mbi.framebufferHeight.toNat) := by
  have ha := gopFbInit_accepted h
  unfold FramebufferSafe
  rw [ha.pixelsDisjoint_iff]
  cases Decidable.em (BelowFourGigabytes mbi) with
  | inr habove =>
    exact ⟨fun hs => Or.inr ⟨habove, hs.2⟩, fun hs =>
      ⟨fun hbelow => absurd hbelow habove, (hs.resolve_left fun hl => habove hl.1).2⟩⟩
  | inl hbelow =>
    constructor
    · rintro ⟨hinside, hrows⟩
      refine Or.inl ⟨hbelow, ?_⟩
      by_contra hwide
      rw [Nat.not_le] at hwide
      cases Nat.lt_or_ge 1 mbi.framebufferHeight.toNat with
      | inl htwo =>
        -- the second row starts inside the first
        have hapart := (hrows.apart 1 (by decide) htwo).1
        have hpitch := mbi.framebufferPitch.isLt
        rw [Nat.one_mul, Nat.mod_eq_of_lt (by omega)] at hapart
        omega
      | inr hone =>
        have hhigh := ha.high
        exact ha.not_writesInside hbelow (by omega) hwide (hinside hbelow)
    · intro hs
      obtain ⟨_, hfit⟩ := hs.resolve_right fun hr => hr.1 hbelow
      refine ⟨fun _ => ha.writesInside hbelow hfit, rowsApart_of_fit ha.high (by omega) ?_⟩
      obtain ⟨_, _, hrows⟩ := ha.below hbelow
      unfold BelowFourGigabytes at hbelow
      omega

/-! ## Two modes of 1024 by 768 pixels -/

/-- The framebuffer before `gop_fb_init`. -/
def bootFb : GopFb := ⟨0#32, 0#32, 0#32, 0#32, 0#8, 0#32⟩

def mode1024 (pitch : Word) (bpp : Byte) : FramebufferInfo :=
  ⟨0x1000#32, 0xE0000000#64, pitch, 1024#32, 768#32, bpp, 1#8⟩

theorem framebuffer_safe_32bpp :
    ∃ fb, gopFbInit (mode1024 4096#32 32#8) bootFb = (0, fb) ∧
      FramebufferSafe (mode1024 4096#32 32#8) fb :=
  ⟨_, rfl, (framebuffer_safe_iff (show gopFbInit _ bootFb = (0, _) from rfl)).mpr (Or.inl ⟨by decide, by decide⟩)⟩

/-- With 24 bits per pixel, the pixels `(768, 0)` and `(0, 1)` are the same cell. -/
theorem rows_overlap :
    ∃ fb, gopFbInit (mode1024 3072#32 24#8) bootFb = (0, fb) ∧
      BelowFourGigabytes (mode1024 3072#32 24#8) ∧
      OnScreen (mode1024 3072#32 24#8) 768#32 0#32 ∧ OnScreen (mode1024 3072#32 24#8) 0#32 1#32 ∧
      (∀ color m, (gopPutpixel fb 768#32 0#32 color m).log = [0xE0000C00#32]) ∧
      (∀ color m, (gopPutpixel fb 0#32 1#32 color m).log = [0xE0000C00#32]) ∧
      ¬ FramebufferSafe (mode1024 3072#32 24#8) fb := by
  have hon : OnScreen (mode1024 3072#32 24#8) 768#32 0#32 := ⟨by decide, by decide⟩
  have hon' : OnScreen (mode1024 3072#32 24#8) 0#32 1#32 := ⟨by decide, by decide⟩
  refine ⟨_, rfl, by decide, hon, hon', fun _ _ => rfl, fun _ _ => rfl, ?_⟩
  rintro ⟨_, hdis⟩
  refine hdis 768#32 0#32 0#32 1#32 0#32 0#32 (fun _ => 0#8) (fun _ => 0#8) hon hon' (by decide)
    0xE0000C00#32 (List.mem_singleton.mpr rfl) 0xE0000C00#32 (List.mem_singleton.mpr rfl)
    0xE0000C00#32 ⟨?_, ?_⟩ <;> decide

end Zenix
