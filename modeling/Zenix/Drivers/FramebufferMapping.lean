import Zenix.Drivers.Framebuffer
import Zenix.Mm.PagingRefinement

/-!
# The framebuffer and the page tables

`kernel_main` calls `paging_init`, which maps the first 16 MB to themselves, and
then `gop_fb_init`, which takes whatever address the boot loader reports.
Nothing maps the framebuffer in between.

Results:
1. `translated_iff`: the bytes that `paging_init` has mapped.
2. `graphics_mapped_iff`: when all that is drawn to is mapped.
3. `framebuffer_not_mapped`: a framebuffer at `0xE0000000` is not.
-/

namespace Zenix
open ByteMemory

/-! ## The property -/

/-- The byte is in a present page and translates to itself. Without a directory
there are no pages. -/
def Translated (pool : TablePool) : Option Paging → Word → Prop
  | none, _ => False
  | some s, b => (∃ e, pageMap pool s (pageNumber b) = some e) ∧
      pagingGetPhysical pool b s = some b

/-- Every byte of every cell that the drawing functions store to is mapped. -/
def GraphicsMapped (pool : TablePool) (r : Option Paging) (fb : GopFb) : Prop :=
  (∀ color m, (gopClear fb color m).All fun a => ∀ b, InCell a b → Translated pool r b) ∧
    ∀ x y color m, (gopPutpixel fb x y color m).All fun a =>
      ∀ b, InCell a b → Translated pool r b

/-! ## What is mapped -/

theorem translated_iff {pool : TablePool} {s : Paging} (hs : IdentityMapped pool 4096 s)
    (b : Word) : Translated pool (some s) b ↔ b.toNat < 2 ^ 24 := by
  show ((∃ e, pageMap pool s (pageNumber b) = some e) ∧ pagingGetPhysical pool b s = some b) ↔ _
  rw [pagingGetPhysical_spec hs.inv, hs.map, pageNumber_toNat]
  cases Nat.lt_or_ge (b.toNat / 2 ^ 12) 4096 with
  | inl hlow =>
    rw [if_pos hlow]
    exact ⟨fun _ => by omega, fun _ => ⟨⟨_, rfl⟩, congrArg some (frameAddr_or_offset b)⟩⟩
  | inr hhigh =>
    rw [if_neg (Nat.not_lt.mpr hhigh)]
    refine ⟨fun h => ?_, fun h => by omega⟩
    obtain ⟨⟨e, he⟩, _⟩ := h
    cases he

/-! ## What is drawn to -/

/-- Every byte that the drawing functions store to lies below `l`. -/
def DrawsBelow (fb : GopFb) (l : Nat) : Prop :=
  (∀ color m, (gopClear fb color m).All fun a => ∀ b, InCell a b → b.toNat < l) ∧
    ∀ x y color m, (gopPutpixel fb x y color m).All fun a => ∀ b, InCell a b → b.toNat < l

theorem cell_end_le {a : Word} {l : Nat} (hl : 2 * l < 2 ^ 32)
    (h : ∀ b, InCell a b → b.toNat < l) : a.toNat + 4 ≤ l := by
  have hfirst := h a (inCell_self a)
  have hlast := h (a + 3#32) (by unfold InCell; bv_omega)
  rw [BitVec.toNat_add, show (3#32).toNat = 3 from rfl] at hlast
  omega

section Drawing
variable {mbi : FramebufferInfo} {fb : GopFb} (ha : Accepted mbi fb)
include ha

/-- The number of pixels that `gop_clear` stores. -/
theorem Accepted.pixels : (fb.pitch / 4#32 * fb.height).toNat =
    mbi.framebufferHeight.toNat * (mbi.framebufferPitch.toNat / 4) % 2 ^ 32 := by
  rw [BitVec.toNat_mul, ha.stride, ha.height, Nat.mul_comm]

theorem Accepted.drawsBelow {l : Nat} (hl : l ≤ 2 ^ 32)
    (hfit : 4 * mbi.framebufferWidth.toNat ≤ mbi.framebufferPitch.toNat)
    (hroom : fb.framebuffer.toNat +
      mbi.framebufferHeight.toNat * (mbi.framebufferPitch.toNat / 4) * 4 ≤ l) :
    DrawsBelow fb l := by
  have hstride := ha.stride
  have hpixels := ha.pixels
  refine ⟨fun color m a hmem b hb => ?_, fun x y color m a hmem b hb => ?_⟩
  · obtain ⟨i, hi, rfl⟩ := (mem_gopClear_log ha.initialized).mp hmem
    rw [BitVec.lt_def, hpixels] at hi
    obtain ⟨_, hhi⟩ := cell_bounds (by omega) hb
    omega
  · obtain ⟨⟨hx, hy⟩, rfl⟩ := ha.putpixel_log.mp hmem
    have hlt := strided_lt (q := mbi.framebufferPitch.toNat / 4) (by omega) hx hy
    have hindex : (y * (fb.pitch / 4#32) + x).toNat =
        y.toNat * (mbi.framebufferPitch.toNat / 4) + x.toNat := by
      rw [BitVec.toNat_add, BitVec.toNat_mul, hstride]
      omega
    obtain ⟨_, hhi⟩ := cell_bounds (by omega) hb
    omega

/-- The cell of the first pixel of a row. -/
theorem Accepted.row_low {l : Nat} (hl : 2 * l < 2 ^ 32) (hd : DrawsBelow fb l) {y : Nat}
    (hy : y < mbi.framebufferHeight.toNat) :
    (fb.framebuffer.toNat + y * (4 * (mbi.framebufferPitch.toNat / 4))) % 2 ^ 32 + 4 ≤ l := by
  have hheight := mbi.framebufferHeight.isLt
  have hstride := ha.stride
  have hy' : (BitVec.ofNat 32 y).toNat = y := toNat_ofNat_of_lt (by omega)
  have hon : OnScreen mbi 0#32 (BitVec.ofNat 32 y) := by
    refine ⟨BitVec.lt_def.mpr ha.wide, BitVec.lt_def.mpr ?_⟩
    rwa [hy']
  have hend := cell_end_le hl (hd.2 _ _ 0#32 (fun _ => 0#8) _ (ha.putpixel_log.mpr ⟨hon, rfl⟩))
  rw [BitVec.add_zero, BitVec.toNat_add, BitVec.toNat_mul, BitVec.toNat_mul, hy', hstride,
    show (4#32).toNat = 4 from rfl] at hend
  rw [Nat.mul_left_comm]
  omega

/-- The cells of `gop_clear`, one after the other, do not go around memory. -/
theorem Accepted.clear_room {l : Nat} (hl : 2 * l < 2 ^ 32) (hd : DrawsBelow fb l) :
    fb.framebuffer.toNat + (fb.pitch / 4#32 * fb.height).toNat * 4 ≤ l := by
  have hf := fb.framebuffer.isLt
  have hfirst := ha.row_low hl hd ha.high
  rw [Nat.zero_mul] at hfirst
  have hcell : ∀ i < (fb.pitch / 4#32 * fb.height).toNat,
      (fb.framebuffer.toNat + i * 4) % 2 ^ 32 + 4 ≤ l := by
    intro i hi
    have hpixels := (fb.pitch / 4#32 * fb.height).isLt
    have hi' : (BitVec.ofNat 32 i).toNat = i := toNat_ofNat_of_lt (by omega)
    have hend := cell_end_le hl (hd.1 0#32 (fun _ => 0#8) _ ((mem_gopClear_log ha.initialized).mpr
      ⟨BitVec.ofNat 32 i, by rw [BitVec.lt_def, hi']; exact hi, rfl⟩))
    rw [BitVec.toNat_add, BitVec.toNat_mul, hi', show (4#32).toNat = 4 from rfl] at hend
    omega
  have hlow : ∀ i ≤ (fb.pitch / 4#32 * fb.height).toNat,
      (fb.framebuffer.toNat + i * 4) % 2 ^ 32 ≤ l := by
    intro i hi
    cases i with
    | zero => omega
    | succ i =>
      have hprev := hcell i hi
      omega
  cases walk_low hl (by decide) hlow hf with
  | inl h => exact h
  | inr h => omega

/-- The rows, one after the other, do not go around memory either: not upwards,
because there is room for the rows, and not downwards, because `gop_clear` ends
above the first row. -/
theorem Accepted.rows_room {l : Nat} (hl : 2 * l < 2 ^ 32) (hd : DrawsBelow fb l) :
    fb.framebuffer.toNat +
      mbi.framebufferHeight.toNat * (mbi.framebufferPitch.toNat / 4) * 4 ≤ l := by
  have hf := fb.framebuffer.isLt
  have hpitch := mbi.framebufferPitch.isLt
  have hclear := ha.clear_room hl hd
  rw [ha.pixels] at hclear
  have hend : (fb.framebuffer.toNat +
      mbi.framebufferHeight.toNat * (4 * (mbi.framebufferPitch.toNat / 4))) % 2 ^ 32 =
      fb.framebuffer.toNat +
        mbi.framebufferHeight.toNat * (mbi.framebufferPitch.toNat / 4) % 2 ^ 32 * 4 := by
    rw [Nat.mul_left_comm]
    omega
  have hlow : ∀ y ≤ mbi.framebufferHeight.toNat,
      (fb.framebuffer.toNat + y * (4 * (mbi.framebufferPitch.toNat / 4))) % 2 ^ 32 ≤ l := by
    intro y hy
    cases Nat.lt_or_eq_of_le hy with
    | inl hlt =>
      have hrow := ha.row_low hl hd hlt
      omega
    | inr heq =>
      rw [heq]
      omega
  have hstep : 4 * (mbi.framebufferPitch.toNat / 4) < 2 ^ 32 := by omega
  cases walk_low hl hstep hlow hf with
  | inl h =>
    rw [Nat.mul_left_comm] at h
    omega
  | inr h =>
    have hgap : 0 < mbi.framebufferHeight.toNat *
        (2 ^ 32 - 4 * (mbi.framebufferPitch.toNat / 4)) := Nat.mul_pos ha.high (by omega)
    omega

theorem Accepted.drawsBelow_iff {l : Nat} (hl : 2 * l < 2 ^ 32)
    (hfit : 4 * mbi.framebufferWidth.toNat ≤ mbi.framebufferPitch.toNat) :
    DrawsBelow fb l ↔ fb.framebuffer.toNat +
      mbi.framebufferHeight.toNat * (mbi.framebufferPitch.toNat / 4) * 4 ≤ l :=
  ⟨ha.rows_room hl, ha.drawsBelow (by omega) hfit⟩

end Drawing

/-- In the boot order of `kernel_main`, everything that is drawn to is mapped to
itself exactly when `paging_init` got a page for its directory and the rows of the
framebuffer end within the first 16 MB. -/
theorem graphics_mapped_iff {pool : TablePool} {page : Option PageDirectory}
    {tables : Fin 256 → PageTable} {r : Option Paging} {mbi : FramebufferInfo} {fb fb₀ : GopFb}
    (hpaging : pagingInit pool page tables = some r) (hgop : gopFbInit mbi fb₀ = (0, fb))
    (hfit : 4 * mbi.framebufferWidth.toNat ≤ mbi.framebufferPitch.toNat) :
    GraphicsMapped pool r fb ↔ page.isSome ∧
      mbi.framebufferAddr.toNat % 2 ^ 32 +
        mbi.framebufferHeight.toNat * (mbi.framebufferPitch.toNat / 4) * 4 ≤ 2 ^ 24 := by
  have ha := gopFbInit_accepted hgop
  have haddr : fb.framebuffer.toNat = mbi.framebufferAddr.toNat % 2 ^ 32 := by
    rw [ha.framebuffer, BitVec.toNat_setWidth]
  rw [← haddr]
  cases page with
  | none =>
    -- the first pixel is drawn, and nothing is mapped
    cases hpaging
    refine ⟨fun hs => ?_, fun hs => absurd hs.1 (by decide)⟩
    have hon : OnScreen mbi 0#32 0#32 := ⟨BitVec.lt_def.mpr ha.wide, BitVec.lt_def.mpr ha.high⟩
    have hcell := hs.2 0#32 0#32 0#32 (fun _ => 0#8) _ (ha.putpixel_log.mpr ⟨hon, rfl⟩)
    exact (hcell _ (inCell_self _)).elim
  | some dir =>
    obtain ⟨s, hs, hid⟩ := pagingInit_spec pool dir tables
    cases hs.symm.trans hpaging
    rw [← ha.drawsBelow_iff (by decide) hfit]
    unfold GraphicsMapped DrawsBelow
    simp only [translated_iff hid]
    exact ⟨fun h => ⟨rfl, h⟩, fun h => h.2⟩

/-! ## Two framebuffers -/

/-- 640 by 480 pixels of 32 bits at 10 MB. -/
def lowMode : FramebufferInfo := ⟨0x1000#32, 0xA00000#64, 2560#32, 640#32, 480#32, 32#8, 1#8⟩

theorem graphics_mapped_low : ∃ dir tables s fb,
    pagingInit poolAt2M (some dir) tables = some (some s) ∧ gopFbInit lowMode bootFb = (0, fb) ∧
      GraphicsMapped poolAt2M (some s) fb := by
  obtain ⟨s, ⟨dir, tables, hs⟩, _⟩ := exists_pagingInit poolAt2M
  have hgop : gopFbInit lowMode bootFb = (0, (gopFbInit lowMode bootFb).2) := rfl
  exact ⟨dir, tables, s, _, hs, hgop, (graphics_mapped_iff hs hgop (by decide)).mpr ⟨rfl, by decide⟩⟩

/-- The first pixel of a framebuffer at `0xE0000000` is in no page. -/
theorem framebuffer_not_mapped : ∃ dir tables s fb,
    pagingInit poolAt2M (some dir) tables = some (some s) ∧
      gopFbInit (mode1024 4096#32 32#8) bootFb = (0, fb) ∧
      (∀ color m, 0xE0000000#32 ∈ (gopPutpixel fb 0#32 0#32 color m).log) ∧
      pageMap poolAt2M s (pageNumber 0xE0000000#32) = none ∧
      ¬ GraphicsMapped poolAt2M (some s) fb := by
  obtain ⟨s, ⟨dir, tables, hs⟩, hid⟩ := exists_pagingInit poolAt2M
  refine ⟨dir, tables, s, _, hs, rfl, fun _ _ => List.mem_singleton.mpr rfl, ?_, ?_⟩
  · rw [hid.map]
    decide
  · rintro ⟨_, hput⟩
    have hcell := hput 0#32 0#32 0#32 (fun _ => 0#8) 0xE0000000#32 (List.mem_singleton.mpr rfl)
      0xE0000000#32 (inCell_self _)
    exact absurd ((translated_iff hid _).mp hcell) (by decide)

end Zenix
