import Mathlib.Data.List.TakeWhile
import Zenix.Shell.Files

/-!
# What `cat` prints (kernel/shell/shell.c, kernel/fs/initrd.c)

`shell_cat` prints each chunk of 256 bytes as a string, and `initrd_read` copies the chunks
from the low end of memory.

Results:
1. `printedText_eq_iff`: printed in chunks, only bytes without a NUL come out as they are.
2. `catLoop_prints`: the texts of the rounds from an offset on.
3. `cat_prints`: what `cat` with the name of a file prints, and when this is the file.
-/

namespace Zenix
open ByteMemory FirstFit

/-! ## Texts in chunks -/

/-- The bytes of memory from an address on. -/
def bytesAt (m : Mem) (a : Word) (n : Nat) : List Byte :=
  (List.range n).map fun j => m (a + BitVec.ofNat 32 j)

/-- Chunks of 256 bytes, each up to its first NUL. -/
def printedText (bytes : List Byte) : List Byte :=
  if bytes = [] then []
  else ((bytes.take 256).takeWhile fun c => c ≠ 0#8) ++ printedText (bytes.drop 256)
termination_by bytes.length
decreasing_by
  have hpos : 0 < bytes.length := List.length_pos_of_ne_nil ‹_›
  rw [List.length_drop]
  omega

theorem printedText_nil : printedText [] = [] := by rw [printedText, if_pos rfl]

theorem printedText_chunk {bytes : List Byte} (h : bytes ≠ []) :
    printedText bytes =
      ((bytes.take 256).takeWhile fun c => c ≠ 0#8) ++ printedText (bytes.drop 256) := by
  rw [printedText, if_neg h]

/-- No more than the bytes is printed, and no NUL. -/
theorem printedText_spec (bytes : List Byte) :
    (printedText bytes).length ≤ bytes.length ∧ 0#8 ∉ printedText bytes ∧
      ((printedText bytes).length = bytes.length → printedText bytes = bytes) := by
  induction hn : bytes.length using Nat.strongRecOn generalizing bytes with
  | ind n ih =>
    rcases Decidable.em (bytes = []) with rfl | hne
    · rw [printedText_nil]
      exact ⟨Nat.zero_le _, List.not_mem_nil, fun _ => rfl⟩
    · have hpos : 0 < bytes.length := List.length_pos_of_ne_nil hne
      have hdrop : (bytes.drop 256).length = bytes.length - 256 := List.length_drop
      obtain ⟨hle, hnul, hfull⟩ := ih (bytes.drop 256).length (by omega) (bytes.drop 256) rfl
      have htake : (bytes.take 256).length = min 256 bytes.length := List.length_take
      have hpref : ((bytes.take 256).takeWhile fun c => c ≠ 0#8) <+: bytes.take 256 :=
        List.takeWhile_prefix _
      have hsub := hpref.length_le
      rw [printedText_chunk hne, List.length_append, List.mem_append]
      refine ⟨by omega, ?_, fun hlength => ?_⟩
      · rintro (hmem | hmem)
        · have hzero : decide ((0#8 : Byte) ≠ 0#8) = true :=
            List.mem_takeWhile_imp (p := fun c : Byte => c ≠ 0#8) hmem
          cases hzero
        · exact hnul hmem
      · rw [hpref.eq_of_length (by omega), hfull (by omega), List.take_append_drop]

/-- Bytes of one length come out of the printing exactly if they are printed themselves and
have no NUL. -/
theorem printedText_eq_iff {bytes data : List Byte} (hlength : bytes.length = data.length) :
    printedText bytes = data ↔ bytes = data ∧ 0#8 ∉ data := by
  constructor
  · rintro rfl
    obtain ⟨_, hnul, hfull⟩ := printedText_spec bytes
    exact ⟨(hfull hlength.symm).symm, hnul⟩
  · rintro ⟨rfl, hnul⟩
    induction hn : bytes.length using Nat.strongRecOn generalizing bytes with
    | ind n ih =>
      rcases Decidable.em (bytes = []) with rfl | hne
      · exact printedText_nil
      · have hpos : 0 < bytes.length := List.length_pos_of_ne_nil hne
        have hchunk : ((bytes.take 256).takeWhile fun c => c ≠ 0#8) = bytes.take 256 :=
          List.takeWhile_eq_self_iff.mpr fun c hc => decide_eq_true fun heq =>
            hnul (heq ▸ List.mem_of_mem_take hc)
        rw [printedText_chunk hne, hchunk,
          ih (bytes.drop 256).length (by rw [List.length_drop]; omega) rfl
            (fun h => hnul (List.mem_of_mem_drop h)) rfl, List.take_append_drop]

/-! ## The loop -/

theorem bytesAt_length (m : Mem) (a : Word) (n : Nat) : (bytesAt m a n).length = n := by
  rw [bytesAt, List.length_map, List.length_range]

theorem bytesAt_getElem {m : Mem} {a : Word} {n j : Nat} (hj : j < (bytesAt m a n).length) :
    (bytesAt m a n)[j] = m (a + BitVec.ofNat 32 j) := by
  simp only [bytesAt, List.getElem_map, List.getElem_range]

theorem bytesAt_congr {m m' : Mem} {a : Word} {n : Nat}
    (h : ∀ j < n, m' (a + BitVec.ofNat 32 j) = m (a + BitVec.ofNat 32 j)) :
    bytesAt m' a n = bytesAt m a n :=
  List.map_congr_left fun j hj => h j (List.mem_range.mp hj)

theorem bytesAt_add (m : Mem) (a : Word) (n k : Nat) :
    bytesAt m a (n + k) = bytesAt m a n ++ bytesAt m (a + BitVec.ofNat 32 n) k := by
  unfold bytesAt
  rw [List.range_add, List.map_append, List.map_map]
  refine congrArg _ (List.map_congr_left fun j _ => ?_)
  rw [Function.comp_apply, BitVec.add_assoc, ofNat_add_ofNat]

/-- A string of bytes in front of a NUL. -/
theorem stringAt_bytes {m : Mem} {buffer : Word} {bytes : List Byte} {n : Nat}
    (h : ∀ j (hj : j < bytes.length), m (buffer + BitVec.ofNat 32 j) = bytes[j])
    (hstop : m (buffer + BitVec.ofNat 32 bytes.length) = 0#8) (hn : bytes.length < n) :
    stringAt m buffer n = bytes.takeWhile fun c => c ≠ 0#8 := by
  have hall : stringAt m buffer n = (bytes ++ [0#8]).takeWhile fun c => c ≠ 0#8 := by
    refine cstring_eq_takeWhile (fun j hj => ?_) (List.mem_append_right _ (List.mem_singleton_self _))
      (by rw [List.length_append]; exact hn)
    rcases Nat.lt_or_ge j bytes.length with hlt | hge
    · rw [List.getElem_append_left hlt]
      exact h j hlt
    · have hlast : j = bytes.length := by
        rw [List.length_append, List.length_singleton] at hj
        omega
      subst hlast
      rw [List.getElem_concat_length rfl]
      exact hstop
  rw [hall, List.takeWhile_append]
  split
  next hfull =>
    rw [(List.takeWhile_prefix _).eq_of_length hfull]
    exact List.append_nil bytes
  next => rfl

/-- A copy does not read what it has written, when the buffer does not start in the source. -/
theorem memcpy_bytes {m : Mem} {buffer src : Word} {n : Nat} (hn : n < 2 ^ 32)
    (hapart : ∀ j < n, src + BitVec.ofNat 32 j ≠ buffer) {j : Nat} (hj : j < n) :
    memcpy m buffer src n (buffer + BitVec.ofNat 32 j) = m (src + BitVec.ofNat 32 j) := by
  have hoff : ¬ (buffer - src).toNat ≤ j := by
    intro hle
    refine hapart (buffer - src).toNat (Nat.lt_of_le_of_lt hle hj) ?_
    rw [BitVec.ofNat_toNat, BitVec.setWidth_eq, BitVec.add_comm, BitVec.sub_add_cancel]
  rw [memcpy_apply _ _ _ (Nat.le_of_lt hn) hj, Nat.mod_eq_of_lt (Nat.not_le.mp hoff)]

/-- A chunk in the buffer as a string. -/
theorem stringAt_chunk {m : Mem} {buffer src : Word} {n : Nat} (hn : n ≤ 256)
    (hapart : ∀ j < n, src + BitVec.ofNat 32 j ≠ buffer) :
    stringAt (store8 (memcpy m buffer src n) (buffer + BitVec.ofNat 32 n) 0#8) buffer 257 =
      (bytesAt m src n).takeWhile fun c => c ≠ 0#8 := by
  refine stringAt_bytes (fun j hj => ?_) ?_ ?_
  · rw [bytesAt_length] at hj
    rw [bytesAt_getElem, store8_ne, memcpy_bytes (by omega) hapart hj]
    exact fun heq => Nat.ne_of_lt hj ((add_ofNat_inj (by omega) (by omega)).mp heq)
  · rw [bytesAt_length, store8, if_pos rfl]
  · rw [bytesAt_length]
    omega

/-- The buffer has no byte in common with the bytes that the file is read from. -/
def SourceApart (img : List Byte) (i : Nat) (buffer : Word) : Prop :=
  ∀ j < (lengthOf img i).toNat, ∀ k < 257,
    offsetOf img i + BitVec.ofNat 32 j ≠ buffer + BitVec.ofNat 32 k

section Loop
variable {sym : InitrdSymbols} {location root : Word} {img : List Byte} {bs : List Block}
  {s₀ t s : Initrd} {r d k : Block} {i : Nat} {buffer : Word}

/-- One round: the bytes that follow in low memory, as a string. -/
theorem catLoop_prints_round (hm : Mounted sym location img bs s₀ t root r d k)
    (hlen : 4 + 73 * (countOf img).toNat ≤ img.length) (hsym : sym.read ≠ 0#32)
    (hs : Undisturbed img location t s) (hi : i < (countOf img).toNat)
    (hbuf : BufferApart img location buffer bs) (hsource : SourceApart img i buffer)
    (hshort : (lengthOf img i).toNat < 0xFFFFFF00) {offset n : Nat}
    (hoffset : offset ≤ (lengthOf img i).toNat)
    (hn : n = min 256 ((lengthOf img i).toNat - offset)) (out : List (List Byte)) :
    ∃ s' s'', Undisturbed img location t s'' ∧
      (∀ x, (∀ j < 257, x ≠ buffer + BitVec.ofNat 32 j) →
        s'.heap.mem x = s.heap.mem x ∧ s''.heap.mem x = s.heap.mem x) ∧
      ∀ fuel, catLoop sym (fileNode t.rootNodes i) buffer (fuel + 1) (BitVec.ofNat 32 offset) s out =
        if n = 0 then some (BitVec.ofNat 32 offset, s', out)
        else catLoop sym (fileNode t.rootNodes i) buffer fuel (BitVec.ofNat 32 (offset + n)) s''
          (out ++ [(bytesAt s.heap.mem (offsetOf img i + BitVec.ofNat 32 offset) n).takeWhile
            fun c => c ≠ 0#8]) := by
  have hoff : (BitVec.ofNat 32 offset).toNat = offset := toNat_ofNat_of_lt (by omega)
  have hsmall : n ≤ 256 := hn ▸ Nat.min_le_left _ _
  have hend : offset + n ≤ (lengthOf img i).toNat := by omega
  obtain ⟨hnode, _, _⟩ := hm.undisturbed hlen hs hi
  obtain ⟨hstart, hlength⟩ := headerFields (hm.placed.image.congr hs.image) hlen hi
  have hcount : grantedCount s.heap.mem (fileHeaderAt location i) (BitVec.ofNat 32 offset) 256#32 =
      n := by
    rw [grantedCount, hlength, hoff, hn]
    rfl
  have hread := initrdRead_eq i (BitVec.ofNat 32 offset) 256#32 buffer hm.toTreeBuilt
    hs.toTableKept (hm.count ▸ hi) (by rw [hoff]; show offset + 256 < 2 ^ 32; omega)
  rw [if_neg hbuf.nonnull, hcount, hstart] at hread
  have hcall : fsRead sym (fileNode t.rootNodes i) (BitVec.ofNat 32 offset) 256#32 buffer s =
      some (BitVec.ofNat 32 n, s.withMem (memcpy s.heap.mem buffer
        (offsetOf img i + BitVec.ofNat 32 offset) n)) := by
    rw [← hs.rootNodes, fsRead, hnode.read, if_pos hsym]
    exact hread
  have htext := stringAt_chunk (m := s.heap.mem) hsmall fun j hj => by
    have hbyte := hsource (offset + j) (by omega) 0 (by decide)
    rwa [← ofNat_add_ofNat, ← BitVec.add_assoc, BitVec.add_zero] at hbyte
  obtain ⟨m, hm'⟩ : ∃ m, memcpy s.heap.mem buffer (offsetOf img i + BitVec.ofNat 32 offset) n = m :=
    ⟨_, rfl⟩
  rw [hm'] at hcall htext
  have hcopy : ∀ x, (∀ j < 257, x ≠ buffer + BitVec.ofNat 32 j) → m x = s.heap.mem x :=
    fun x hx => hm' ▸ memcpy_other fun j hj => hx j (by omega)
  have hstop : ∀ x, (∀ j < 257, x ≠ buffer + BitVec.ofNat 32 j) →
      store8 m (buffer + BitVec.ofNat 32 n) 0#8 x = s.heap.mem x :=
    fun x hx => (store8_ne (hx n (by omega))).trans (hcopy x hx)
  refine ⟨s.withMem m, s.withMem (store8 m (buffer + BitVec.ofNat 32 n) 0#8),
    hs.writeBuffer hm hbuf hstop, fun x hx => ⟨hcopy x hx, hstop x hx⟩, fun fuel => ?_⟩
  have hzero : BitVec.ofNat 32 n = 0#32 ↔ n = 0 :=
    ⟨fun h => by rw [← toNat_ofNat_of_lt (a := n) (by omega), h]; rfl, fun h => by rw [h]⟩
  rw [catLoop, hcall, Option.bind_some]
  dsimp only
  simp only [hzero, ofNat_add_ofNat]
  rw [← htext]
  rfl

/-- The rounds from an offset on. -/
theorem catLoop_prints (hm : Mounted sym location img bs s₀ t root r d k)
    (hlen : 4 + 73 * (countOf img).toNat ≤ img.length) (hsym : sym.read ≠ 0#32)
    (hi : i < (countOf img).toNat) (hbuf : BufferApart img location buffer bs)
    (hsource : SourceApart img i buffer) (hshort : (lengthOf img i).toNat < 0xFFFFFF00) (left : Nat)
    {s : Initrd} {offset : Nat} (out : List (List Byte)) (hs : Undisturbed img location t s)
    (hleft : offset + left = (lengthOf img i).toNat) :
    ∃ fuel s' texts, catLoop sym (fileNode t.rootNodes i) buffer fuel (BitVec.ofNat 32 offset) s out =
        some (lengthOf img i, s', out ++ texts) ∧
      texts.flatten =
        printedText (bytesAt s.heap.mem (offsetOf img i + BitVec.ofNat 32 offset) left) ∧
      ∀ x, (∀ j < 257, x ≠ buffer + BitVec.ofNat 32 j) → s'.heap.mem x = s.heap.mem x := by
  induction left using Nat.strongRecOn generalizing s offset out with
  | ind left ih =>
    obtain ⟨s', s'', hs'', hother, hround⟩ := catLoop_prints_round hm hlen hsym hs hi hbuf hsource
      hshort (Nat.le.intro hleft) rfl out
    rw [← hleft, Nat.add_sub_cancel_left] at hround
    rcases Nat.eq_zero_or_pos left with rfl | hpos
    · refine ⟨1, s', [], ?_, ?_, fun x hx => (hother x hx).1⟩
      · rw [Nat.add_zero] at hleft
        rw [hround 0, if_pos (Nat.min_zero 256), hleft, BitVec.ofNat_toNat, BitVec.setWidth_eq,
          List.append_nil]
      · exact printedText_nil.symm
    · obtain ⟨n, hn⟩ : ∃ n, n = min 256 left := ⟨_, rfl⟩
      rw [← hn] at hround
      obtain ⟨fuel, s₁, texts, hloop, hprinted, hkept⟩ := ih (left - n) (by omega)
        (out ++ [(bytesAt s.heap.mem (offsetOf img i + BitVec.ofNat 32 offset) n).takeWhile
          fun c => c ≠ 0#8]) hs'' (show offset + n + (left - n) = _ by omega)
      refine ⟨fuel + 1, s₁, (bytesAt s.heap.mem (offsetOf img i + BitVec.ofNat 32 offset) n).takeWhile
        (fun c => c ≠ 0#8) :: texts, ?_, ?_, fun x hx => (hkept x hx).trans (hother x hx).2⟩
      · rw [hround fuel, if_neg (by omega), hloop, List.append_assoc]
        rfl
      · -- the chunk and the rest
        have hsplit := bytesAt_add s.heap.mem (offsetOf img i + BitVec.ofNat 32 offset) n (left - n)
        rw [Nat.add_sub_cancel' (by omega), BitVec.add_assoc, ofNat_add_ofNat] at hsplit
        have hne : bytesAt s.heap.mem (offsetOf img i + BitVec.ofNat 32 offset) left ≠ [] :=
          List.ne_nil_of_length_pos (by rw [bytesAt_length]; exact hpos)
        have hfirst := bytesAt_length s.heap.mem (offsetOf img i + BitVec.ofNat 32 offset) n
        have hrest : bytesAt s''.heap.mem (offsetOf img i + BitVec.ofNat 32 (offset + n)) (left - n) =
            bytesAt s.heap.mem (offsetOf img i + BitVec.ofNat 32 (offset + n)) (left - n) :=
          bytesAt_congr fun j hj => (hother _ fun k hk => by
            rw [BitVec.add_assoc, ofNat_add_ofNat]
            exact hsource _ (by omega) k hk).2
        rw [List.flatten_cons, hprinted, hrest, printedText_chunk hne, hsplit]
        rcases Nat.lt_or_ge left 256 with hlast | hmore
        · have hend : left - n = 0 := by omega
          rw [hend, show bytesAt s.heap.mem (offsetOf img i + BitVec.ofNat 32 (offset + n)) 0 = []
            from rfl, List.append_nil, List.take_of_length_le (by omega),
            List.drop_of_length_le (by omega)]
        · have hfull : n = 256 := by omega
          rw [hfull] at hfirst ⊢
          rw [List.take_left' hfirst, List.drop_left' hfirst]

/-- The data of a file, as the header says where it is in the image. -/
def fileData (img : List Byte) (i : Nat) : List Byte :=
  (List.range (lengthOf img i).toNat).map fun j => byteAt img ((offsetOf img i).toNat + j)

/-- For every image that `initrd_init` has accepted and every file that is not too long:
`cat` with its name comes back and has written nothing but its buffer. It prints the strings
in the chunks of the memory at the offset of the file, taken as an address, and a line end.
This is the file exactly if that memory holds the file, and the file has no NUL. -/
theorem cat_prints (ho : Owns s₀.heap bs) (hp : Placed img location s₀.heap.mem bs)
    (hlen : 4 + 73 * (countOf img).toNat ≤ img.length)
    (hinit : initrdInit sym location s₀ = some (root, t)) (hroot : root ≠ 0#32)
    (hdistinct : ((List.range (countOf img).toNat).map (fileName img)).Nodup)
    (hdev : ∀ i, i < (countOf img).toNat → fileName img i ≠ devName) (hsym : sym.read ≠ 0#32)
    (hfinddir : sym.finddir ≠ 0#32) (hs : Undisturbed img location t s) (htree : TreeIntact t s)
    (hbuf : BufferApart img location buffer bs) (hsource : SourceApart img i buffer)
    (hi : i < (countOf img).toNat) (hshort : (lengthOf img i).toNat < 0xFFFFFF00) {filename : Word}
    (hfilename : filename ≠ 0#32) (hname : NameIs s.heap.mem filename (fileName img i))
    (hne : fileName img i ≠ []) :
    ∃ fuel out s', shellCat sym root filename buffer fuel s = some (out, s') ∧
      (∀ x, (∀ j < 257, x ≠ buffer + BitVec.ofNat 32 j) → s'.heap.mem x = s.heap.mem x) ∧
      out.flatten = printedText (bytesAt s.heap.mem (offsetOf img i) (lengthOf img i).toNat) ++
        [0x0A#8] ∧
      (out.flatten = fileData img i ++ [0x0A#8] ↔
        bytesAt s.heap.mem (offsetOf img i) (lengthOf img i).toNat = fileData img i ∧
          0#8 ∉ fileData img i) := by
  rcases initrdInit_cases ho hp hlen hinit with hnull | ⟨r, d, k, hm⟩
  · exact absurd hnull hroot
  obtain ⟨hfind, hnode⟩ := hm.find_file hdistinct hdev hfinddir htree hi hfilename hname
  have hfirst := filename_nonempty hname hne
  obtain ⟨fuel, s', texts, hloop, htexts, hkept⟩ := catLoop_prints hm hlen hsym hi hbuf hsource hshort
    (lengthOf img i).toNat [] hs (Nat.zero_add _)
  rw [BitVec.add_zero] at htexts
  have hflat : (texts ++ [literal "\n"]).flatten =
      printedText (bytesAt s.heap.mem (offsetOf img i) (lengthOf img i).toNat) ++ [0x0A#8] := by
    rw [List.flatten_append, htexts]
    rfl
  have hdata : (bytesAt s.heap.mem (offsetOf img i) (lengthOf img i).toNat).length =
      (fileData img i).length := by
    rw [bytesAt_length, fileData, List.length_map, List.length_range]
  refine ⟨fuel, texts ++ [literal "\n"], s', ?_, hkept, hflat, ?_⟩
  · rw [shellCat, if_neg hroot, if_neg (not_or.mpr ⟨hfilename, hfirst⟩), hfind, Option.bind_some,
      if_neg hnode, hs.rootNodes]
    exact congrArg (Option.map fun (p : Word × Initrd × List (List Byte)) =>
      (p.2.2 ++ [literal "\n"], p.2.1)) hloop
  · rw [hflat, List.append_left_inj, printedText_eq_iff hdata]

end Loop

/-! ## A file of one letter -/

/-- An image with one file, `a`, which holds the letter `A`. -/
def letterImage : List Byte :=
  le32 1#32 ++ (0xBF#8 :: 0x61#8 :: List.replicate 63 0#8) ++ le32 77#32 ++ le32 1#32 ++ [0x41#8]

theorem letterImage_placed :
    Placed letterImage 0x1000000#32 (freshInitrd 0x1000000#32 letterImage).heap.mem [] :=
  freshInitrd_placed (by decide) (by decide)

theorem letterImage_mounted :
    ∃ root t, initrdInit exampleSymbols 0x1000000#32 (freshInitrd 0x1000000#32 letterImage) =
        some (root, t) ∧ root ≠ 0#32 ∧
      Kept [] (freshInitrd 0x1000000#32 letterImage).heap.mem t.heap.mem := by
  have hcount := letterImage_placed.count (by decide)
  obtain ⟨root, t, hinit, hroot⟩ :=
    initrdInit_fresh exampleSymbols 0x1000000#32 (s := freshInitrd 0x1000000#32 letterImage) rfl
      (by decide) (by rw [hcount]; decide)
  rcases initrdInit_cases (heapInit_owns _) letterImage_placed (by decide) hinit with
    hnull | ⟨r, d, k, hmounted⟩
  · exact absurd hnull hroot
  · exact ⟨root, t, hinit, hroot, hmounted.kept⟩

theorem letterImage_buffer (j : Nat) (hj : j < 257) :
    (0x2000000#32 + BitVec.ofNat 32 j).toNat = 0x2000000 + j :=
  toNat_add_ofNat (a := 0x2000000#32)
    (by simp only [BitVec.toNat_ofNat, Nat.reducePow, Nat.reduceMod]; omega)

theorem letterImage_bufferApart : BufferApart letterImage 0x1000000#32 0x2000000#32 [] := by
  refine ⟨by decide, fun j hj => Or.inr (Or.inl ?_), fun j k hj hk heq => ?_⟩
  · rw [letterImage_buffer j hj]
    exact Nat.le_trans (by decide) (Nat.le_add_right _ _)
  · have hk' : k < 78 := hk
    have hto := congrArg BitVec.toNat heq
    rw [letterImage_buffer j hj, toNat_add_ofNat (a := 0x1000000#32)
      (by simp only [BitVec.toNat_ofNat, Nat.reducePow, Nat.reduceMod]; omega)] at hto
    simp only [BitVec.toNat_ofNat, Nat.reducePow, Nat.reduceMod] at hto
    omega

theorem letterImage_sourceApart : SourceApart letterImage 0 0x2000000#32 := by
  intro j hj k hk heq
  obtain rfl : j = 0 := Nat.lt_one_iff.mp hj
  have hto := congrArg BitVec.toNat heq
  rw [letterImage_buffer k hk] at hto
  have hsource : (offsetOf letterImage 0 + BitVec.ofNat 32 0).toNat = 77 := by decide
  omega

/-- The file holds an `A`, and `cat` prints an empty line: address 77 holds a NUL. -/
theorem cat_prints_letter :
    ∃ root t fuel out s',
      initrdInit exampleSymbols 0x1000000#32 (freshInitrd 0x1000000#32 letterImage) =
        some (root, t) ∧
      shellCat exampleSymbols root 0x1000005#32 0x2000000#32 fuel t = some (out, s') ∧
      out.flatten = [0x0A#8] ∧ fileData letterImage 0 = [0x41#8] := by
  obtain ⟨root, t, hinit, hroot, hkept⟩ := letterImage_mounted
  have himage := (letterImage_placed.kept hkept).image
  have hlow : t.heap.mem 77#32 = 0#8 :=
    (hkept 77#32 (Or.inl (by decide))).trans ((heapInit_sameOff _ _ (by decide)).trans (by decide))
  have hname : NameIs t.heap.mem 0x1000005#32 (fileName letterImage 0) := by
    have hname : fileName letterImage 0 = [0x61#8] := by decide
    rw [hname]
    refine ⟨fun k hk => ?_, himage 6 (by decide)⟩
    obtain rfl : k = 0 := Nat.lt_one_iff.mp hk
    exact himage 5 (by decide)
  obtain ⟨fuel, out, s', hcat, _, hout, _⟩ := cat_prints (heapInit_owns _) letterImage_placed
    (by decide) hinit hroot (by decide) (fun i hi => by
      obtain rfl : i = 0 := Nat.lt_one_iff.mp hi
      decide)
    (by decide) (by decide) (Undisturbed.refl _ _ _) (TreeIntact.refl t) letterImage_bufferApart
    letterImage_sourceApart (by decide) (by decide) (by decide) hname (by decide)
  refine ⟨root, t, fuel, out, s', hinit, hcat, ?_, by decide⟩
  have hbytes : bytesAt t.heap.mem (offsetOf letterImage 0) (lengthOf letterImage 0).toNat =
      [0#8] := congrArg (fun b => [b]) hlow
  rw [hout, hbytes, printedText_chunk (List.cons_ne_nil _ _)]
  exact congrArg (· ++ [0x0A#8]) printedText_nil

end Zenix
