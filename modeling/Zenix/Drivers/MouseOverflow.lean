import Zenix.Drivers.Mouse

/-!
# Packets with an overflow bit (kernel/drivers/mouse/mouse.c)

"Ignore this packet" comes after the buttons of the packet have been stored.

Results:
1. `SameDecoder.receive`: which part of the statics the decoder depends on.
2. `parse_overflow`: what a packet with an overflow bit leaves behind.
3. `overflow_ignored_iff`: it is ignored exactly when it has the buttons that are down.
4. `overflow_presses`: a packet that is to be ignored presses the left button.
-/

namespace Zenix
open ByteMemory

/-! ## The property -/

/-- From `s`, a packet that leads to `t` has been ignored: the pointer and the buttons are the
same, the decoder waits for a first byte, and all bytes that follow are decoded as in `s`. -/
structure Ignored (s t : Mouse) : Prop where
  state : mouseGetState t = mouseGetState s
  cycle : t.mouseCycle = 0
  following : ∀ bytes s' t', mouseSystem.Run s bytes s' → mouseSystem.Run t bytes t' →
    mouseGetState t' = mouseGetState s' ∧ t'.mouseCycle = s'.mouseCycle

/-! ## What the decoder depends on -/

/-- The statics agree in the state of the mouse and in the bytes of the packet so far. -/
structure SameDecoder (s t : Mouse) : Prop where
  state : t.mouseState = s.mouseState
  cycle : t.mouseCycle = s.mouseCycle
  bytes : ∀ i, i < s.mouseCycle → t.mouseByte i = s.mouseByte i

theorem parsePacket_congr {s t : Mouse} (hstate : t.mouseState = s.mouseState)
    (hbytes : ∀ i, i < 3 → t.mouseByte i = s.mouseByte i) :
    (parsePacket t).mouseState = (parsePacket s).mouseState := by
  unfold parsePacket
  dsimp only
  rw [hbytes 0 (by decide), hbytes 1 (by decide), hbytes 2 (by decide), hstate]
  split
  · rfl
  · split <;> rfl

/-- One byte. -/
theorem SameDecoder.receive {s t : Mouse} (h : SameDecoder s t) (data : Byte) :
    SameDecoder (mouseReceive data s) (mouseReceive data t) := by
  have hbytes : ∀ i, i < s.mouseCycle + 1 →
      (if i = s.mouseCycle then data else t.mouseByte i) =
        if i = s.mouseCycle then data else s.mouseByte i := by
    intro i hi
    split
    · rfl
    · exact h.bytes i (by omega)
  unfold mouseReceive
  rw [h.cycle]
  split
  · exact ⟨h.state, rfl, h.bytes⟩
  · dsimp only
    split
    · next hthird =>
      refine ⟨parsePacket_congr h.state fun i hi => hbytes i (by omega), ?_, fun i hi => ?_⟩
      · rw [parsePacket_cycle, parsePacket_cycle]
      · rw [parsePacket_cycle] at hi
        exact absurd hi (Nat.not_lt_zero i)
    · exact ⟨h.state, rfl, hbytes⟩

theorem SameDecoder.receiveAll {s t : Mouse} (h : SameDecoder s t) (bytes : List Byte) :
    SameDecoder (receiveAll bytes s) (receiveAll bytes t) := by
  induction bytes generalizing s t with
  | nil => exact h
  | cons data bytes ih => exact ih (h.receive data)

/-- Between two packets the decoder depends on the state of the mouse only. -/
theorem ignored_iff {s t : Mouse} (hs : s.mouseCycle = 0) (ht : t.mouseCycle = 0) :
    Ignored s t ↔ t.mouseState = s.mouseState := by
  refine ⟨Ignored.state, fun hstate => ⟨hstate, ht, fun bytes s' t' hrun hrun' => ?_⟩⟩
  have hsame : SameDecoder s t :=
    ⟨hstate, ht.trans hs.symm, fun i hi => absurd (hs ▸ hi) (Nat.not_lt_zero i)⟩
  rw [mouseRun_iff] at hrun hrun'
  subst hrun hrun'
  exact ⟨(hsame.receiveAll bytes).state, (hsame.receiveAll bytes).cycle⟩

/-! ## The packet -/

/-- The buttons are stored, the pointer stays. -/
theorem parse_overflow {p : Packet} (hp : p.overflow) (s : Mouse) :
    (parsePacket (collected p s)).mouseState =
      { s.mouseState with buttons := p.head &&& 0x07#8 } := by
  unfold parsePacket
  dsimp only
  split
  · rfl
  · next hx =>
    have hy : (collected p s).mouseByte 0 &&& 0x80#8 ≠ 0#8 := hp.resolve_left hx
    rw [if_pos hy]
    rfl

/-- From every state between two packets: a packet with an overflow bit is ignored exactly
when its buttons are those that the driver reports already. -/
theorem overflow_ignored_iff {s t : Mouse} (hcycle : s.mouseCycle = 0) {p : Packet}
    (hp : p.overflow) (hrun : mouseSystem.Run s [p.head, p.moveX, p.moveY] t) :
    Ignored s t ↔ p.head &&& 0x07#8 = (mouseGetState s).buttons := by
  rw [mouseRun_iff, receive_packet p hcycle] at hrun
  have hstate := parse_overflow hp s
  rw [← hrun] at hstate
  have ht : t.mouseCycle = 0 := by
    rw [hrun, parsePacket_cycle]
    rfl
  rw [ignored_iff hcycle ht, hstate]
  constructor
  · exact fun h => congrArg MouseState.buttons h
  · intro h
    rw [h]
    rfl

/-- Movement overflows, no button is down. -/
theorem overflow_ignored_iff_released :
    ∃ t, mouseSystem.Run mouseStart [0x48#8, 0xFF#8, 0x00#8] t ∧ Ignored mouseStart t := by
  have hrun := mouseRun_iff.mpr (Eq.refl (receiveAll [0x48#8, 0xFF#8, 0x00#8] mouseStart))
  exact ⟨_, hrun, (overflow_ignored_iff (p := ⟨0x48#8, 0xFF#8, 0x00#8, by decide⟩) rfl
    (Or.inl (by decide)) hrun).mpr rfl⟩

/-- Movement overflows with the left button down: the driver reports the button. -/
theorem overflow_presses :
    ∃ t, mouseSystem.Run mouseStart [0x49#8, 0xFF#8, 0x00#8] t ∧
      (mouseGetState mouseStart).buttons = 0#8 ∧ (mouseGetState t).buttons = MOUSE_LEFT_BTN ∧
      ¬ Ignored mouseStart t := by
  refine ⟨_, mouseRun_iff.mpr rfl, rfl, by decide, fun h => ?_⟩
  exact absurd (congrArg MouseState.buttons h.state) (by decide)

end Zenix
