import Zenix.Lib.Memory
import Zenix.Lib.Transition

/-!
# The mouse (kernel/drivers/mouse/mouse.c)

The mouse interrupt collects three bytes and decodes them: buttons, signs and overflow
bits in the first one, the movement in the other two. The bytes are stored as `int8_t`,
so a movement is sign-extended from its own top bit before the sign bit of the first
byte comes in.

Results:
1. `delta_eq_nineBit_iff`: when that makes the nine-bit number.
2. `mouse_decodes_iff`: when every packet of a stream moves the pointer as it says.
3. `fast_movement_reversed`: a movement of 200 to the right goes to the left.
-/

namespace Zenix
open ByteMemory

/-- `mouse_state_t`. -/
structure MouseState where
  x : Word
  y : Word
  buttons : Byte

def MOUSE_LEFT_BTN : Byte := 0x01#8

/-- The statics of mouse.c. -/
structure Mouse where
  mouseState : MouseState
  mouseCycle : Nat
  mouseByte : Nat → Byte
  mousePacketCount : Word
  mouseErrorCount : Word

def MOUSE_BBIT : Byte := 0x01#8
def MOUSE_F_BIT : Byte := 0x20#8

/-! ## The handler -/

/-- `int32_t d = mouse_byte[i]; if (flag) d |= 0xFFFFFF00;`. -/
def delta (flag : Prop) [Decidable flag] (b : Byte) : Word :=
  if flag then b.signExtend 32 ||| 0xFFFFFF00#32 else b.signExtend 32

/-- `if (d > 5 || d < -5) d *= 2;`. -/
def accelerate (d : Word) : Word := if (5#32).slt d ∨ d.slt (-5#32) then d * 2#32 else d

/-- `if (v < 0) v = 0; if (v >= limit) v = limit - 1;`. -/
def clampTo (limit v : Word) : Word :=
  let v := if v.slt 0#32 then 0#32 else v
  if limit.sle v then limit - 1#32 else v

/-- `mouse_handler_wrapper` from "Parse mouse packet" on. -/
def parsePacket (s : Mouse) : Mouse :=
  let b := s.mouseByte
  let state := { s.mouseState with buttons := b 0 &&& 0x07#8 }
  let dx := delta (b 0 &&& 0x10#8 ≠ 0#8) (b 1)
  let dy := delta (b 0 &&& 0x20#8 ≠ 0#8) (b 2)
  if b 0 &&& 0x40#8 ≠ 0#8 then { s with mouseState := state }
  else if b 0 &&& 0x80#8 ≠ 0#8 then { s with mouseState := state }
  else
    { s with
      mouseState := { state with
        x := clampTo 640#32 (state.x + accelerate dx)
        y := clampTo 480#32 (state.y - accelerate dy) } }

/-- `mouse_handler_wrapper` from "Validate packet" on. -/
def mouseReceive (data : Byte) (s : Mouse) : Mouse :=
  if s.mouseCycle = 0 ∧ data &&& 0x08#8 = 0#8 then
    { s with mouseErrorCount := s.mouseErrorCount + 1#32 }
  else
    let s := { s with
      mouseByte := fun i => if i = s.mouseCycle then data else s.mouseByte i
      mouseCycle := s.mouseCycle + 1 }
    if s.mouseCycle = 3 then
      parsePacket { s with mouseCycle := 0, mousePacketCount := s.mousePacketCount + 1#32 }
    else s

/-- `mouse_handler_wrapper`; `status` and `data` are what it reads from the ports. -/
def mouseHandlerWrapper (status data : Byte) (s : Mouse) : Mouse :=
  if status &&& MOUSE_BBIT = 0#8 then s
  else if status &&& MOUSE_F_BIT = 0#8 then s
  else mouseReceive data s

def mouseGetState (s : Mouse) : MouseState := s.mouseState

/-- The statics when `mouse_init` has installed the handler. -/
def mouseStart : Mouse := ⟨⟨160#32, 100#32, 0#8⟩, 0, fun _ => 0#8, 0#32, 0#32⟩

/-! ## Streams -/

/-- The data-available and auxiliary status bits. -/
def Ready (status : Byte) : Prop := status &&& MOUSE_BBIT ≠ 0#8 ∧ status &&& MOUSE_F_BIT ≠ 0#8

/-- Bytes are delivered one by one, each with both status bits set. -/
def mouseSystem : TransitionSystem Mouse Byte where
  init := fun s => s = mouseStart
  step := fun s data t => ∃ status, Ready status ∧ t = mouseHandlerWrapper status data s

/-- Three bytes, the first of which has bit 3 set. -/
structure Packet where
  head : Byte
  moveX : Byte
  moveY : Byte
  sync : head &&& 0x08#8 ≠ 0#8

/-- What the stream consists of: packets, and bytes with bit 3 clear between them. -/
inductive MouseItem where
  | packet (p : Packet)
  | separator (b : Byte) (clear : b &&& 0x08#8 = 0#8)

def MouseItem.bytes : MouseItem → List Byte
  | .packet p => [p.head, p.moveX, p.moveY]
  | .separator b _ => [b]

def streamBytes (items : List MouseItem) : List Byte := items.flatMap MouseItem.bytes

/-! ## The property -/

/-- The nine-bit two's complement number with the sign bit `flag`. -/
def nineBit (flag : Prop) [Decidable flag] (b : Byte) : Int := b.toNat - if flag then 256 else 0

/-- Movements of more than five are doubled. -/
def accelerated (d : Int) : Int := if 5 < d.natAbs then 2 * d else d

def clamp (hi v : Int) : Int := max 0 (min hi v)

def Packet.overflow (p : Packet) : Prop := p.head &&& 0x40#8 ≠ 0#8 ∨ p.head &&& 0x80#8 ≠ 0#8

def Packet.dx (p : Packet) : Int := nineBit (p.head &&& 0x10#8 ≠ 0#8) p.moveX
def Packet.dy (p : Packet) : Int := nineBit (p.head &&& 0x20#8 ≠ 0#8) p.moveY

/-- The pointer moves by the numbers in the packet. -/
def Packet.Moves (p : Packet) (s t : Mouse) : Prop :=
  t.mouseState.x.toInt = clamp 639 (s.mouseState.x.toInt + accelerated p.dx) ∧
    t.mouseState.y.toInt = clamp 479 (s.mouseState.y.toInt - accelerated p.dy)

def MouseItem.Law (s t : Mouse) : MouseItem → Prop
  | .packet p => ¬ p.overflow → p.Moves s t
  | .separator _ _ => t = { s with mouseErrorCount := s.mouseErrorCount + 1#32 }

/-- Wherever an item stands in the stream, its bytes do what the law says. -/
def Decodes (start : Mouse) (items : List MouseItem) : Prop :=
  ∀ pre it post s t, items = pre ++ it :: post → mouseSystem.Run start (streamBytes pre) s →
    mouseSystem.Run s it.bytes t → it.Law s t

/-- A movement without its sign bit is at most 127. -/
def Packet.Small (p : Packet) : Prop :=
  (p.head &&& 0x10#8 = 0#8 → p.moveX < 0x80#8) ∧ (p.head &&& 0x20#8 = 0#8 → p.moveY < 0x80#8)

/-! ## The arithmetic -/

/-- The two extensions agree unless the byte has a sign of its own and the flag has
not. -/
theorem delta_toInt (flag : Prop) [Decidable flag] (b : Byte) :
    (delta flag b).toInt = nineBit flag b - if ¬ flag ∧ 0x80#8 ≤ b then 256 else 0 := by
  have hset : ∀ b : Byte, (b.signExtend 32 ||| 0xFFFFFF00#32).toInt = b.toNat - 256 := by
    decide +kernel
  have hclear : ∀ b : Byte, (b.signExtend 32).toInt =
      b.toNat - if 0x80#8 ≤ b then 256 else 0 := by
    decide +kernel
  unfold delta nineBit
  cases Decidable.em flag with
  | inl h =>
    rw [if_pos h, if_pos h, if_neg fun hn => hn.1 h, hset]
    omega
  | inr h =>
    rw [if_neg h, if_neg h, hclear]
    simp only [h, not_false_eq_true, true_and]
    omega

theorem nineBit_bounds (flag : Prop) [Decidable flag] (b : Byte) :
    -256 ≤ nineBit flag b ∧ nineBit flag b ≤ 255 := by
  have hb := b.isLt
  unfold nineBit
  split <;> omega

theorem toInt_add_small {a b : Word} (hlo : -0x80000000 ≤ a.toInt + b.toInt)
    (hhi : a.toInt + b.toInt < 0x80000000) : (a + b).toInt = a.toInt + b.toInt := by
  rw [BitVec.toInt_add]
  exact Int.bmod_eq_of_le (by omega) (by omega)

theorem toInt_sub_small {a b : Word} (hlo : -0x80000000 ≤ a.toInt - b.toInt)
    (hhi : a.toInt - b.toInt < 0x80000000) : (a - b).toInt = a.toInt - b.toInt := by
  rw [BitVec.toInt_sub]
  exact Int.bmod_eq_of_le (by omega) (by omega)

theorem accelerate_toInt {d : Word} (hlo : -0x40000000 ≤ d.toInt) (hhi : d.toInt < 0x40000000) :
    (accelerate d).toInt = accelerated d.toInt := by
  have hfast : (5#32).slt d = true ∨ d.slt (-5#32) = true ↔ 5 < d.toInt.natAbs := by
    rw [BitVec.slt_iff_toInt_lt, BitVec.slt_iff_toInt_lt, show (5#32).toInt = 5 from rfl,
      show (-5#32).toInt = -5 from rfl]
    omega
  unfold accelerate accelerated
  rw [if_congr hfast rfl rfl]
  split
  · rw [BitVec.toInt_mul, show (2#32).toInt = 2 from rfl, Int.mul_comm]
    exact Int.bmod_eq_of_le (by omega) (by omega)
  · rfl

theorem clampTo_toInt {limit v : Word} (hpos : 0 < limit.toInt)
    (hlast : (limit - 1#32).toInt = limit.toInt - 1) :
    (clampTo limit v).toInt = clamp (limit.toInt - 1) v.toInt := by
  have hzero : (0#32).toInt = 0 := rfl
  unfold clampTo clamp
  cases Decidable.em (v.slt 0#32 = true) with
  | inl hneg =>
    rw [if_pos hneg]
    rw [BitVec.slt_iff_toInt_lt, hzero] at hneg
    have hin : ¬ limit.sle 0#32 = true := by
      rw [BitVec.sle_iff_toInt_le, hzero]
      omega
    rw [if_neg hin, hzero]
    omega
  | inr hnonneg =>
    rw [if_neg hnonneg]
    rw [BitVec.slt_iff_toInt_lt, hzero] at hnonneg
    dsimp only
    rw [apply_ite BitVec.toInt, hlast]
    simp only [BitVec.sle_iff_toInt_le]
    split <;> omega

/-- A byte with a sign of its own where the flag has none is a movement in the other
direction; otherwise it is the nine-bit number. -/
theorem delta_cases (flag : Prop) [Decidable flag] (b : Byte) :
    ((¬ flag → b < 0x80#8) ∧ (delta flag b).toInt = nineBit flag b) ∨
      ¬ (¬ flag → b < 0x80#8) ∧ accelerated (delta flag b).toInt < 0 ∧
        0 < accelerated (nineBit flag b) := by
  rw [delta_toInt]
  cases Decidable.em (¬ flag ∧ 0x80#8 ≤ b) with
  | inl h =>
    have hlow : 128 ≤ b.toNat := BitVec.le_def.mp h.2
    have hhigh := b.isLt
    rw [if_pos h]
    unfold nineBit accelerated
    rw [if_neg h.1]
    refine Or.inr ⟨fun hsmall => absurd (BitVec.lt_def.mp (hsmall h.1)) (Nat.not_lt.mpr hlow), ?_⟩
    constructor
    · split <;> omega
    · split <;> omega
  | inr h =>
    rw [if_neg h, Int.sub_zero]
    refine Or.inl ⟨fun hflag => ?_, rfl⟩
    rw [BitVec.lt_def, ← Nat.not_le]
    exact fun hle => h ⟨hflag, BitVec.le_def.mpr hle⟩

/-- On a screen of more than one pixel a movement to the one side does not end where
one to the other side does. -/
theorem clamp_ne {hi x u v : Int} (hhi : 0 < hi) (hx : 0 ≤ x ∧ x ≤ hi) (hu : u < 0) (hv : 0 < v) :
    clamp hi (x + u) ≠ clamp hi (x + v) := by
  unfold clamp
  omega

/-- One axis of the pointer. The handler adds the movement to `x` and subtracts it from
`y`. -/
structure Axis (limit v : Word) : Prop where
  wide : 1 < limit.toInt
  low : limit.toInt ≤ 65536
  last : (limit - 1#32).toInt = limit.toInt - 1
  nonneg : 0 ≤ v.toInt
  lt : v.toInt < limit.toInt

namespace Axis
variable {limit v : Word} (flag : Prop) [Decidable flag] (b : Byte)

theorem delta_bounds :
    -512 ≤ (delta flag b).toInt ∧ (delta flag b).toInt ≤ 255 := by
  have hb := nineBit_bounds flag b
  rw [delta_toInt]
  split <;> omega

theorem accelerate_delta_toInt :
    (accelerate (delta flag b)).toInt = accelerated (delta flag b).toInt := by
  have hd := delta_bounds flag b
  exact accelerate_toInt (by omega) (by omega)

theorem move_bounds :
    -1024 ≤ accelerated (delta flag b).toInt ∧ accelerated (delta flag b).toInt ≤ 510 := by
  have hd := delta_bounds flag b
  unfold accelerated
  split <;> omega

theorem add_iff (h : Axis limit v) :
    (clampTo limit (v + accelerate (delta flag b))).toInt =
        clamp (limit.toInt - 1) (v.toInt + accelerated (nineBit flag b)) ↔
      (¬ flag → b < 0x80#8) := by
  have hlow := h.low
  have hnonneg := h.nonneg
  have hlt := h.lt
  have hwide := h.wide
  have hm := move_bounds flag b
  rw [clampTo_toInt (by omega) h.last, toInt_add_small, accelerate_delta_toInt]
  · rcases delta_cases flag b with ⟨hgood, heq⟩ | ⟨hbad, hneg, hpos⟩
    · rw [heq]
      exact iff_of_true rfl hgood
    · exact iff_of_false (clamp_ne (by omega) ⟨hnonneg, by omega⟩ hneg hpos) hbad
  · rw [accelerate_delta_toInt]
    omega
  · rw [accelerate_delta_toInt]
    omega

theorem sub_iff (h : Axis limit v) :
    (clampTo limit (v - accelerate (delta flag b))).toInt =
        clamp (limit.toInt - 1) (v.toInt - accelerated (nineBit flag b)) ↔
      (¬ flag → b < 0x80#8) := by
  have hlow := h.low
  have hnonneg := h.nonneg
  have hlt := h.lt
  have hwide := h.wide
  have hm := move_bounds flag b
  rw [clampTo_toInt (by omega) h.last, toInt_sub_small, accelerate_delta_toInt]
  · rcases delta_cases flag b with ⟨hgood, heq⟩ | ⟨hbad, hneg, hpos⟩
    · rw [heq]
      exact iff_of_true rfl hgood
    · refine iff_of_false (Ne.symm ?_) hbad
      rw [Int.sub_eq_add_neg, Int.sub_eq_add_neg]
      exact clamp_ne (by omega) ⟨hnonneg, by omega⟩ (by omega) (by omega)
  · rw [accelerate_delta_toInt]
    omega
  · rw [accelerate_delta_toInt]
    omega

end Axis

/-! ## The handler on a stream -/

/-- The pointer is on the screen. -/
structure Mouse.OnScreen (s : Mouse) : Prop where
  x : 0 ≤ s.mouseState.x.toInt ∧ s.mouseState.x.toInt < 640
  y : 0 ≤ s.mouseState.y.toInt ∧ s.mouseState.y.toInt < 480

theorem Mouse.OnScreen.axisX {s : Mouse} (h : s.OnScreen) : Axis 640#32 s.mouseState.x :=
  ⟨by decide, by decide, rfl, h.x.1, h.x.2⟩

theorem Mouse.OnScreen.axisY {s : Mouse} (h : s.OnScreen) : Axis 480#32 s.mouseState.y :=
  ⟨by decide, by decide, rfl, h.y.1, h.y.2⟩

theorem clampTo_bounds (limit : Word) {n : Int} (hn : limit.toInt = n) (hpos : 0 < n)
    (hlast : (limit - 1#32).toInt = n - 1) (v : Word) :
    0 ≤ (clampTo limit v).toInt ∧ (clampTo limit v).toInt < n := by
  subst hn
  rw [clampTo_toInt hpos hlast]
  unfold clamp
  omega

theorem parsePacket_onScreen {s : Mouse} (h : s.OnScreen) : (parsePacket s).OnScreen := by
  unfold parsePacket
  dsimp only
  split
  · exact ⟨h.x, h.y⟩
  · split
    · exact ⟨h.x, h.y⟩
    · constructor
      case x =>
        dsimp only
        exact clampTo_bounds 640#32 rfl (by decide) (by decide) _
      case y =>
        dsimp only
        exact clampTo_bounds 480#32 rfl (by decide) (by decide) _

theorem mouseReceive_onScreen {s : Mouse} (data : Byte) (h : s.OnScreen) :
    (mouseReceive data s).OnScreen := by
  unfold mouseReceive
  split
  · exact ⟨h.x, h.y⟩
  · dsimp only
    split
    · exact parsePacket_onScreen ⟨h.x, h.y⟩
    · exact ⟨h.x, h.y⟩

theorem handler_ready {status : Byte} (h : Ready status) (data : Byte) (s : Mouse) :
    mouseHandlerWrapper status data s = mouseReceive data s := by
  unfold mouseHandlerWrapper
  rw [if_neg h.1, if_neg h.2]

theorem mouseStep_iff {s t : Mouse} {data : Byte} :
    mouseSystem.step s data t ↔ t = mouseReceive data s := by
  constructor
  · rintro ⟨status, hready, rfl⟩
    exact handler_ready hready data s
  · rintro rfl
    have hready : Ready 0x21#8 := ⟨by decide, by decide⟩
    exact ⟨0x21#8, hready, (handler_ready hready data s).symm⟩

theorem reachable_onScreen {s : Mouse} (h : mouseSystem.Reachable s) : s.OnScreen := by
  refine h.invariant (P := Mouse.OnScreen) ?_ ?_
  · rintro s rfl
    exact ⟨by decide, by decide⟩
  · intro s data t _ hs hst
    rw [mouseStep_iff.mp hst]
    exact mouseReceive_onScreen data hs

/-- The bytes of a stream, one after the other. -/
def receiveAll (bytes : List Byte) (s : Mouse) : Mouse :=
  bytes.foldl (fun s data => mouseReceive data s) s

theorem mouseRun_iff {s t : Mouse} {bytes : List Byte} :
    mouseSystem.Run s bytes t ↔ t = receiveAll bytes s := by
  induction bytes generalizing s with
  | nil =>
    constructor
    · rintro ⟨⟩
      rfl
    · rintro rfl
      exact .nil
  | cons data bytes ih =>
    constructor
    · rintro (_ | ⟨hst, hrun⟩)
      rw [ih.mp hrun, mouseStep_iff.mp hst]
      rfl
    · intro h
      exact .cons (mouseStep_iff.mpr rfl) (ih.mpr h)

/-- The state in which a packet is parsed. -/
def collected (p : Packet) (s : Mouse) : Mouse :=
  { s with
    mouseByte := fun i =>
      if i = 2 then p.moveY else if i = 1 then p.moveX else if i = 0 then p.head else s.mouseByte i
    mouseCycle := 0
    mousePacketCount := s.mousePacketCount + 1#32 }

theorem receive_packet {s : Mouse} (p : Packet) (h : s.mouseCycle = 0) :
    receiveAll [p.head, p.moveX, p.moveY] s = parsePacket (collected p s) := by
  have hhead : mouseReceive p.head s = { s with
      mouseByte := fun i => if i = 0 then p.head else s.mouseByte i
      mouseCycle := 1 } := by
    unfold mouseReceive
    rw [if_neg fun hc => p.sync hc.2, h]
    exact if_neg (show 0 + 1 ≠ 3 by decide)
  unfold receiveAll
  rw [List.foldl_cons, List.foldl_cons, List.foldl_cons, List.foldl_nil, hhead]
  rfl

theorem receive_separator {s : Mouse} {b : Byte} (hb : b &&& 0x08#8 = 0#8) (h : s.mouseCycle = 0) :
    receiveAll [b] s = { s with mouseErrorCount := s.mouseErrorCount + 1#32 } :=
  if_pos ⟨h, hb⟩

theorem parsePacket_cycle (s : Mouse) : (parsePacket s).mouseCycle = s.mouseCycle := by
  unfold parsePacket
  dsimp only
  split
  · rfl
  · split <;> rfl

/-- Between the items of a stream the handler waits for a first byte. -/
theorem receive_item {s : Mouse} (it : MouseItem) (h : s.mouseCycle = 0) :
    (receiveAll it.bytes s).mouseCycle = 0 := by
  cases it with
  | packet p => exact (congrArg Mouse.mouseCycle (receive_packet p h)).trans (parsePacket_cycle _)
  | separator b hb => exact (congrArg Mouse.mouseCycle (receive_separator hb h)).trans h

theorem receive_stream {s : Mouse} (items : List MouseItem) (h : s.mouseCycle = 0) :
    (receiveAll (streamBytes items) s).mouseCycle = 0 := by
  induction items generalizing s with
  | nil => exact h
  | cons it items ih =>
    have hsplit : receiveAll (streamBytes (it :: items)) s =
        receiveAll (streamBytes items) (receiveAll it.bytes s) := by
      unfold receiveAll streamBytes
      rw [List.flatMap_cons, List.foldl_append]
    rw [hsplit]
    exact ih (receive_item it h)

/-- A packet without overflow bits moves the pointer as it says exactly when its
movements without a sign bit are at most 127. -/
theorem packet_moves_iff {s : Mouse} (p : Packet) (hs : s.OnScreen) (hp : ¬ p.overflow) :
    p.Moves s (parsePacket (collected p s)) ↔ p.Small := by
  have hx := hs.axisX.add_iff (p.head &&& 0x10#8 ≠ 0#8) p.moveX
  have hy := hs.axisY.sub_iff (p.head &&& 0x20#8 ≠ 0#8) p.moveY
  rw [not_not] at hx hy
  have hparse : parsePacket (collected p s) = { collected p s with
      mouseState := {
        x := clampTo 640#32 (s.mouseState.x + accelerate (delta (p.head &&& 0x10#8 ≠ 0#8) p.moveX))
        y := clampTo 480#32 (s.mouseState.y - accelerate (delta (p.head &&& 0x20#8 ≠ 0#8) p.moveY))
        buttons := p.head &&& 0x07#8 } } :=
    (if_neg fun h => hp (Or.inl h)).trans (if_neg fun h => hp (Or.inr h))
  rw [hparse]
  unfold Packet.Moves
  dsimp only
  exact and_congr hx hy

/-- Every packet of a stream that starts between two packets moves the pointer as it
says, and every byte between packets only counts as an error, exactly when the packets
without overflow bits have movements of at most 127 wherever the sign bit is clear. -/
theorem mouse_decodes_iff {start : Mouse} (h : mouseSystem.Reachable start)
    (hcycle : start.mouseCycle = 0) (items : List MouseItem) :
    Decodes start items ↔ ∀ p, .packet p ∈ items → ¬ p.overflow → p.Small := by
  have hat : ∀ pre, (receiveAll (streamBytes pre) start).OnScreen := fun pre =>
    reachable_onScreen (h.run (mouseRun_iff.mpr rfl))
  constructor
  · intro hdec p hmem hp
    obtain ⟨pre, post, hsplit⟩ := List.append_of_mem hmem
    have hlaw := hdec pre _ post _ _ hsplit (mouseRun_iff.mpr rfl) (mouseRun_iff.mpr rfl) hp
    rw [MouseItem.bytes, receive_packet p (receive_stream pre hcycle)] at hlaw
    exact (packet_moves_iff p (hat pre) hp).mp hlaw
  · intro hsmall pre it post s t hsplit hpre hit
    rw [mouseRun_iff] at hpre hit
    subst hpre hit
    have hzero := receive_stream pre hcycle
    cases it with
    | packet p =>
      intro hp
      have hmem : MouseItem.packet p ∈ items := by
        rw [hsplit]
        exact List.mem_append_right _ List.mem_cons_self
      rw [MouseItem.bytes, receive_packet p hzero]
      exact (packet_moves_iff p (hat pre) hp).mpr (hsmall p hmem hp)
    | separator b hb => exact receive_separator hb hzero

/-- One packet from the start: 5 to the right and 3 up. -/
theorem mouse_decodes_slow :
    Decodes mouseStart [.separator 0#8 (by decide), .packet ⟨0x08#8, 5#8, 3#8, by decide⟩] := by
  refine (mouse_decodes_iff (.init rfl) rfl _).mpr fun p hp _ => ?_
  rw [List.mem_cons, List.mem_singleton] at hp
  rcases hp with h | h
  · cases h
  · cases h
    exact ⟨fun _ => by decide, fun _ => by decide⟩

/-- A movement of 200 to the right goes 112 to the left: from 160 to 48. -/
theorem fast_movement_reversed :
    (∃ t, mouseSystem.Run mouseStart [0x08#8, 0xC8#8, 0#8] t ∧ t.mouseState.x = 48#32) ∧
      ¬ Decodes mouseStart [.packet ⟨0x08#8, 0xC8#8, 0#8, by decide⟩] := by
  constructor
  · refine ⟨_, mouseRun_iff.mpr rfl, ?_⟩
    decide
  · intro hdec
    have hlaw := hdec [] _ [] _ _ rfl .nil (mouseRun_iff.mpr rfl) (by unfold Packet.overflow; decide)
    exact absurd hlaw.1 (by decide)

end Zenix
