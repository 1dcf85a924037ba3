import Zenix.Core.Monitor
import Zenix.Fs.InitrdBounds
import Zenix.Fs.InitrdListing

/-!
# `ls` and `cat` (kernel/shell/shell.c)

`shell_ls` lists the root directory and looks every name up, to mark the directories.
`shell_cat` reads a file in chunks of 256 bytes into a buffer on its stack. Printing writes
to the screen, not to memory that the file system reads, so the texts are only collected
here.

Results:
1. `shellLs_prints`: what `ls` prints.
2. `chunk_below`, `chunk_wraps`: what a read at an offset returns.
3. `cat_terminates_iff`: the loop of `cat` ends, at the end of the file, exactly for files
   shorter than `2^32 - 256` bytes.
4. `cat_forever`: an accepted image with a longer one.
5. `shellCat_returns_iff`: `cat` with the name of a file.
-/

namespace Zenix
open ByteMemory FirstFit

/-! ## The functions -/

section Functions
variable (sym : InitrdSymbols) (dirent : Word)

/-- `while ((node = fs_readdir(fs_root, i)) != 0)`; `out` is what has been printed. `none` is a
loop that has not ended. -/
def lsLoop (fsRoot : Word) :
    Nat → Word → Initrd → List (List Byte) → Option (List (List Byte) × Initrd)
  | 0, _, _, _ => none
  | fuel + 1, i, s, out =>
      (fsReaddir sym dirent fsRoot i s).bind fun (node, s) =>
        if node = 0#32 then some (out, s)
        else
          let out := out ++ [literal "  ", stringAt s.heap.mem node 128]
          (fsFinddir sym fsRoot node s).bind fun fsnode =>
            let isDir := fsnode ≠ 0#32 ∧ nodeFlags s.heap.mem fsnode &&& FS_DIRECTORY ≠ 0#32
            let out := (if isDir then out ++ [literal "/"] else out) ++ [literal "\n"]
            let i := i + 1#32
            if (100#32).slt i then some (out, s) else lsLoop fsRoot fuel i s out

def shellLs (fsRoot : Word) (fuel : Nat) (s : Initrd) : Option (List (List Byte) × Initrd) :=
  if fsRoot = 0#32 then some ([literal "Error: No filesystem mounted\n"], s)
  else lsLoop sym dirent fsRoot fuel 0#32 s [literal "Directory listing:\n"]

/-- `while ((sz = fs_read(fsnode, offset, 256, buffer)) > 0)`. -/
def catLoop (fsnode buffer : Word) :
    Nat → Word → Initrd → List (List Byte) → Option (Word × Initrd × List (List Byte))
  | 0, _, _, _ => none
  | fuel + 1, offset, s, out =>
      (fsRead sym fsnode offset 256#32 buffer s).bind fun (sz, s) =>
        if sz = 0#32 then some (offset, s, out)
        else
          let s := s.withMem (store8 s.heap.mem (buffer + sz) 0#8)
          catLoop fsnode buffer fuel (offset + sz) s (out ++ [stringAt s.heap.mem buffer 257])

/-- `shell_cat`; `buffer` is its array of 257 bytes. -/
def shellCat (fsRoot filename buffer : Word) (fuel : Nat) (s : Initrd) :
    Option (List (List Byte) × Initrd) :=
  if fsRoot = 0#32 then some ([literal "Error: No filesystem mounted\n"], s)
  else if filename = 0#32 ∨ s.heap.mem filename = 0#8 then
    some ([literal "Usage: cat <filename>\n"], s)
  else
    (fsFinddir sym fsRoot filename s).bind fun fsnode =>
      if fsnode = 0#32 then some ([literal "Error: File not found\n"], s)
      else
        (catLoop sym fsnode buffer fuel 0#32 s []).map fun (_, s, out) =>
          (out ++ [literal "\n"], s)

end Functions

/-! ## The listing -/

/-- What is printed for an entry. -/
def lineOf (m : Mem) (e : DirEntry) : List (List Byte) :=
  [literal "  ", e.name] ++
    (if nodeFlags m e.node &&& FS_DIRECTORY ≠ 0#32 then [literal "/"] else []) ++ [literal "\n"]

section Listing
variable {sym : InitrdSymbols} {location root dirent : Word} {bs : List Block}
  {s₀ t s : Initrd} {r d k : Block}

/-- The flags of the nodes stay. -/
theorem TreeIntact.flags_eq (hl : RootListed sym root t) (hl' : RootListed sym root s)
    (hs : TreeIntact t s) {e : DirEntry} (he : e ∈ entries t) :
    nodeFlags s.heap.mem e.node = nodeFlags t.heap.mem e.node := by
  rcases List.mem_cons.mp he with rfl | he
  · have hdev := hl'.devFlags
    rw [hs.initrdDev] at hdev
    exact hdev.trans hl.devFlags.symm
  · obtain ⟨i, hi, rfl⟩ := List.mem_map.mp he
    have hfile := hl'.fileFlags i (hs.nrootNodes ▸ List.mem_range.mp hi)
    rw [hs.rootNodes] at hfile
    exact hfile.trans (hl.fileFlags i (List.mem_range.mp hi)).symm

/-- The line as the loop puts it together. -/
theorem lineOf_eq {m : Mem} {e : DirEntry} (hnull : e.node ≠ 0#32) (out : List (List Byte)) :
    (if e.node ≠ 0#32 ∧ nodeFlags m e.node &&& FS_DIRECTORY ≠ 0#32 then
        out ++ [literal "  ", e.name] ++ [literal "/"]
      else out ++ [literal "  ", e.name]) ++ [literal "\n"] = out ++ lineOf m e := by
  rw [lineOf]
  rcases Decidable.em (nodeFlags m e.node &&& FS_DIRECTORY ≠ 0#32) with hflag | hflag
  · rw [if_pos ⟨hnull, hflag⟩, if_pos hflag]
    simp only [List.append_assoc]
  · rw [if_neg fun h => hflag h.2, if_neg hflag, List.append_nil]
    simp only [List.append_assoc]

/-- One round prints one entry. -/
theorem lsLoop_round (hb : TreeBuilt sym location bs s₀ t root r d k)
    (hdir : DirentApart dirent bs) (hreaddir : sym.readdir ≠ 0#32)
    (hfinddir : sym.finddir ≠ 0#32) (hdistinct : ((entries t).map DirEntry.name).Nodup) {i : Nat}
    (out : List (List Byte)) (hs : TreeIntact t s) (hi : i < (entries t).length) :
    ∃ s', TreeIntact t s' ∧ ∀ fuel, lsLoop sym dirent root (fuel + 1) (BitVec.ofNat 32 i) s out =
      lsLoop sym dirent root fuel (BitVec.ofNat 32 (i + 1)) s'
        (out ++ lineOf t.heap.mem (entries t)[i]) := by
  have hten := hb.atMost
  have hlen := entries_length t
  have hmem := List.getElem_mem hi
  obtain ⟨m, hcall, hs', hnode, htext, _⟩ :=
    listing_step hb hdir hreaddir hfinddir hdistinct hs hi
  have hl' := hb.rootListed hs'
  have hnull : (entries t)[i].node ≠ 0#32 := by
    refine (hl'.nodes _ ?_).1
    rw [hb.entries_eq hs']
    exact hmem
  have hflags := hs'.flags_eq (hb.rootListed (TreeIntact.refl t)) hl' hmem
  have hfew : (100#32).slt (BitVec.ofNat 32 (i + 1)) = false := by
    rw [BitVec.slt_eq_decide, decide_eq_false_iff_not, BitVec.toInt_eq_toNat_of_lt,
      BitVec.toInt_eq_toNat_of_lt, toNat_ofNat_of_lt (by omega)] <;>
      simp only [BitVec.toNat_ofNat] <;> omega
  refine ⟨s.withMem m, hs', fun fuel => ?_⟩
  rw [lsLoop, hcall, Option.bind_some]
  dsimp only
  rw [if_neg hdir.nonnull, hnode, Option.bind_some, ofNat_add_ofNat, hfew, hflags]
  have hmem' : (s.withMem m).heap.mem = m := rfl
  rw [hmem', htext, lineOf_eq hnull]
  rfl

/-- From an index on, when `left` entries are left. -/
theorem lsLoop_from (hb : TreeBuilt sym location bs s₀ t root r d k)
    (hdir : DirentApart dirent bs) (hreaddir : sym.readdir ≠ 0#32)
    (hfinddir : sym.finddir ≠ 0#32) (hdistinct : ((entries t).map DirEntry.name).Nodup)
    {left i : Nat} (out : List (List Byte)) (hs : TreeIntact t s)
    (hleft : i + left = (entries t).length) :
    ∃ s', lsLoop sym dirent root (left + 1) (BitVec.ofNat 32 i) s out =
      some (out ++ ((entries t).drop i).flatMap (lineOf t.heap.mem), s') := by
  induction left generalizing i s out with
  | zero =>
    have hend := listing_end dirent hb hreaddir hs
    rw [← hleft, Nat.add_zero] at hend
    refine ⟨s, ?_⟩
    rw [lsLoop, hend, Option.bind_some, List.drop_of_length_le (by omega), List.flatMap_nil,
      List.append_nil]
    exact if_pos rfl
  | succ left ih =>
    have hi : i < (entries t).length := by omega
    obtain ⟨s₁, hs₁, hround⟩ := lsLoop_round hb hdir hreaddir hfinddir hdistinct out hs hi
    obtain ⟨s', hrest⟩ := ih (i := i + 1) (out ++ lineOf t.heap.mem (entries t)[i]) hs₁ (by omega)
    refine ⟨s', ?_⟩
    rw [hround, hrest, List.drop_eq_getElem_cons hi, List.flatMap_cons, ← List.append_assoc]

/-- For every image that `initrd_init` has accepted, with distinct stored names none of which is
"dev": `ls` prints "dev/" and then the name of every file once, in the order of the table. -/
theorem shellLs_prints (ho : Owns s₀.heap bs)
    (hinit : initrdInit sym location s₀ = some (root, t)) (hroot : root ≠ 0#32)
    (hdistinct : (storedNames t).Nodup) (hdev : devName ∉ storedNames t)
    (hreaddir : sym.readdir ≠ 0#32) (hfinddir : sym.finddir ≠ 0#32) (hdir : DirentApart dirent bs)
    (hs : TreeIntact t s) :
    ∃ fuel s', shellLs sym dirent root fuel s = some ([literal "Directory listing:\n"] ++
      ([literal "  ", devName, literal "/", literal "\n"] ++
        (storedNames t).flatMap fun name => [literal "  ", name, literal "\n"]), s') := by
  rcases initrdInit_built ho hinit with hnull | ⟨r, d, k, hb⟩
  · exact absurd hnull hroot
  have hl := hb.rootListed (TreeIntact.refl t)
  obtain ⟨s', hloop⟩ := lsLoop_from hb hdir hreaddir hfinddir (entries_nodup hdistinct hdev)
    [literal "Directory listing:\n"] hs (Nat.zero_add _)
  have hfiles : ∀ i ∈ List.range t.nrootNodes.toNat,
      lineOf t.heap.mem ⟨storedName t i, BitVec.ofNat 32 i, fileNode t.rootNodes i⟩ =
        [literal "  ", storedName t i, literal "\n"] := by
    intro i hi
    rw [lineOf, hl.fileFlags i (List.mem_range.mp hi)]
    rfl
  have hfirst : lineOf t.heap.mem ⟨devName, 0#32, t.initrdDev⟩ =
      [literal "  ", devName, literal "/", literal "\n"] := by
    rw [lineOf, hl.devFlags]
    rfl
  rw [List.drop_zero, entries, List.flatMap_cons, List.flatMap_map, hfirst,
    List.flatMap_congr hfiles] at hloop
  refine ⟨_, s', (if_neg hroot).trans (hloop.trans ?_)⟩
  rw [storedNames, List.flatMap_map]

end Listing

/-! ## One chunk -/

/-- How many bytes a read of 256 bytes returns. -/
def chunk (length offset : Word) : Word :=
  if length < offset then 0#32
  else if length < offset + 256#32 then length - offset
  else 256#32

theorem chunk_le (length offset : Word) : (chunk length offset).toNat ≤ 256 := by
  have hsum : (offset + 256#32).toNat = (offset.toNat + 256) % 2 ^ 32 := BitVec.toNat_add _ _
  unfold chunk
  split
  · exact Nat.zero_le _
  · next hoff =>
    rw [BitVec.not_lt] at hoff
    have hoff' : offset.toNat ≤ length.toNat := hoff
    split
    · next hlt =>
      rw [BitVec.lt_def, hsum] at hlt
      rw [BitVec.toNat_sub_of_le hoff]
      omega
    · exact Nat.le_refl _

/-- In a file shorter than `2^32 - 256` bytes a chunk ends at most at the end of the file,
and it is empty only there. -/
theorem chunk_below {length offset : Word} (hlen : length.toNat < 0xFFFFFF00)
    (hoff : offset ≤ length) :
    (offset + chunk length offset).toNat = offset.toNat + (chunk length offset).toNat ∧
      offset + chunk length offset ≤ length ∧ (chunk length offset = 0#32 ↔ offset = length) := by
  have hoff' : offset.toNat ≤ length.toNat := hoff
  have hsum : (offset + 256#32).toNat = offset.toNat + 256 := by
    rw [BitVec.toNat_add]
    exact Nat.mod_eq_of_lt (by simp only [BitVec.toNat_ofNat]; omega)
  have hcount : (chunk length offset).toNat =
      if length.toNat < offset.toNat + 256 then length.toNat - offset.toNat else 256 := by
    rw [chunk, if_neg (BitVec.not_lt.mpr hoff), ← hsum]
    split
    · next hlt => rw [if_pos (BitVec.lt_def.mp hlt), BitVec.toNat_sub_of_le hoff]
    · next hge =>
      rw [if_neg (mt BitVec.lt_def.mpr hge)]
      rfl
  have hadd : (offset + chunk length offset).toNat = offset.toNat + (chunk length offset).toNat :=
    toNat_add_of_lt (by rw [hcount]; split <;> omega)
  refine ⟨hadd, ?_, ?_⟩
  · rw [BitVec.le_def, hadd, hcount]
    split <;> omega
  · rw [← BitVec.toNat_inj, ← BitVec.toNat_inj, hcount]
    simp only [BitVec.toNat_ofNat]
    split <;> omega

/-- In a longer file every chunk at a multiple of 256 is a full one: behind the last
multiple the sum in the test wraps around. -/
theorem chunk_wraps {length offset : Word} (hlen : 0xFFFFFF00 ≤ length.toNat)
    (hoff : offset.toNat % 256 = 0) :
    chunk length offset = 256#32 ∧ (offset + 256#32).toNat % 256 = 0 := by
  have hlt := offset.isLt
  have hsum : (offset + 256#32).toNat = (offset.toNat + 256) % 2 ^ 32 := BitVec.toNat_add _ _
  refine ⟨?_, by omega⟩
  rw [chunk, if_neg (by rw [BitVec.lt_def]; omega), if_neg (by rw [BitVec.lt_def, hsum]; omega)]

/-! ## The loop -/

/-- The buffer lies in client memory and outside of the image. -/
structure BufferApart (img : List Byte) (location buffer : Word) (bs : List Block) : Prop where
  nonnull : buffer ≠ 0#32
  client : ∀ j, j < 257 → ClientByte bs (buffer + BitVec.ofNat 32 j)
  offImage : ∀ j k, j < 257 → k < img.length →
    buffer + BitVec.ofNat 32 j ≠ location + BitVec.ofNat 32 k

section Loop
variable {sym : InitrdSymbols} {location root : Word} {img : List Byte} {bs : List Block}
  {s₀ t s : Initrd} {r d k : Block} {i : Nat} {buffer : Word}

/-- Writes to the buffer disturb neither the image nor the node table. -/
theorem Undisturbed.writeBuffer (hm : Mounted sym location img bs s₀ t root r d k)
    (hbuf : BufferApart img location buffer bs) (hs : Undisturbed img location t s) {m : Mem}
    (hw : ∀ x, (∀ j, j < 257 → x ≠ buffer + BitVec.ofNat 32 j) → m x = s.heap.mem x) :
    Undisturbed img location t (s.withMem m) := by
  have hpay := hm.owns.payload_toNat List.mem_cons_self
  have hroom := hm.room
  have hnew : k ∉ d :: r :: bs := (List.nodup_cons.mp hm.owns.nodup).1
  refine ⟨⟨hs.rootNodes, hs.nrootNodes, hs.fileHeaders, fun x hlo hhi => ?_⟩, fun n hn => ?_⟩
  · rw [← hs.table x hlo hhi]
    refine hw _ fun j hj heq => ?_
    -- the node table is the payload of a block, the buffer is in none of these
    have hoff := clientByte_off_payload hm.owns hnew hroom
      ((hbuf.client j hj).mono fun b hb => List.mem_cons_of_mem _ (List.mem_cons_of_mem _ hb))
    rw [hm.table] at hhi
    rw [hm.table] at hlo
    rw [heq] at hlo hhi
    omega
  · rw [← hs.image n hn]
    exact hw _ fun j hj heq => hbuf.offImage j n hj hn heq.symm

/-- Only an offset behind the end of the file is refused. -/
theorem Mounted.readServed (hm : Mounted sym location img bs s₀ t root r d k)
    (hlen : 4 + 73 * (countOf img).toNat ≤ img.length) (hs : Undisturbed img location t s)
    (hi : i < (countOf img).toNat) {offset : Word} (hbuf : buffer ≠ 0#32)
    (hoffset : ¬ fileLengthOf (fileNode s.rootNodes i) s < offset) :
    ¬ ReadRefused (fileNode s.rootNodes i) offset buffer s := by
  obtain ⟨hnode, _, _⟩ := hm.undisturbed hlen hs hi
  obtain ⟨_, hlo, _⟩ := hm.fileNode_fits (hm.count ▸ hi)
  have hten := hm.atMost
  rw [hm.count] at hten
  rintro (hzero | hzero | hinode | hbehind)
  · rw [hs.rootNodes] at hzero
    rw [hzero] at hlo
    exact absurd hlo (by decide)
  · exact hbuf hzero
  · rw [hnode.inode, hs.nrootNodes, hm.count, BitVec.le_def, toNat_ofNat_of_lt (by omega)] at hinode
    omega
  · exact hoffset hbehind

/-- A read of 256 bytes from the file. -/
theorem fsRead_chunk (hm : Mounted sym location img bs s₀ t root r d k)
    (hlen : 4 + 73 * (countOf img).toNat ≤ img.length) (hsym : sym.read ≠ 0#32)
    (hs : Undisturbed img location t s) (hi : i < (countOf img).toNat)
    (hbuf : BufferApart img location buffer bs) (offset : Word) :
    ∃ s', fsRead sym (fileNode s.rootNodes i) offset 256#32 buffer s =
        some (chunk (lengthOf img i) offset, s') ∧
      Undisturbed img location t s' ∧ s'.rootNodes = s.rootNodes := by
  obtain ⟨hnode, _, hlength⟩ := hm.undisturbed hlen hs hi
  have hfile : fileLengthOf (fileNode s.rootNodes i) s = lengthOf img i := by
    rw [fileLengthOf, hnode.inode, hlength]
  have hcall : fsRead sym (fileNode s.rootNodes i) offset 256#32 buffer s =
      some (initrdRead (fileNode s.rootNodes i) offset 256#32 buffer s) := by
    rw [fsRead, hnode.read, if_pos hsym, callRead, if_pos hnode.read]
  rw [hcall]
  rcases Decidable.em (lengthOf img i < offset) with hbehind | hoffset
  · rw [initrdRead_refused 256#32 (Or.inr (Or.inr (Or.inr (hfile ▸ hbehind)))), chunk, if_pos hbehind]
    exact ⟨s, rfl, hs, rfl⟩
  · have hserved := hm.readServed hlen hs hi hbuf.nonnull (hfile ▸ hoffset)
    obtain ⟨src, hread⟩ := initrdRead_served 256#32 hserved
    have hchunk : (if lengthOf img i < offset + 256#32 then lengthOf img i - offset else 256#32) =
        chunk (lengthOf img i) offset := by
      rw [chunk, if_neg hoffset]
    rw [hread, hfile, hchunk]
    refine ⟨_, rfl, hs.writeBuffer hm hbuf fun x hx => ?_, rfl⟩
    have hcount := chunk_le (lengthOf img i) offset
    exact memcpy_other fun j hj => hx j (by omega)

/-- One round of the loop. -/
theorem catLoop_round (hm : Mounted sym location img bs s₀ t root r d k)
    (hlen : 4 + 73 * (countOf img).toNat ≤ img.length) (hsym : sym.read ≠ 0#32)
    (hs : Undisturbed img location t s) (hi : i < (countOf img).toNat)
    (hbuf : BufferApart img location buffer bs) (offset : Word) (out : List (List Byte)) :
    ∃ s' s'' text, Undisturbed img location t s'' ∧
      ∀ fuel, catLoop sym (fileNode t.rootNodes i) buffer (fuel + 1) offset s out =
        if chunk (lengthOf img i) offset = 0#32 then some (offset, s', out)
        else catLoop sym (fileNode t.rootNodes i) buffer fuel
          (offset + chunk (lengthOf img i) offset) s'' (out ++ [text]) := by
  obtain ⟨s', hread, hs', _⟩ := fsRead_chunk hm hlen hsym hs hi hbuf offset
  rw [hs.rootNodes] at hread
  -- the buffer after the final NUL
  obtain ⟨m, hmem⟩ : ∃ m, store8 s'.heap.mem (buffer + chunk (lengthOf img i) offset) 0#8 = m :=
    ⟨_, rfl⟩
  refine ⟨s', s'.withMem m, stringAt m buffer 257,
    hs'.writeBuffer hm hbuf fun x hx => hmem ▸ store8_ne ?_, fun fuel => ?_⟩
  · have hcount := chunk_le (lengthOf img i) offset
    have hlast := hx (chunk (lengthOf img i) offset).toNat (by omega)
    rwa [BitVec.ofNat_toNat, BitVec.setWidth_eq] at hlast
  · rw [catLoop, hread, ← hmem]
    rfl

/-- A short file: the loop reaches its end. -/
theorem catLoop_ends (hm : Mounted sym location img bs s₀ t root r d k)
    (hlen : 4 + 73 * (countOf img).toNat ≤ img.length) (hsym : sym.read ≠ 0#32)
    (hi : i < (countOf img).toNat) (hbuf : BufferApart img location buffer bs)
    (hshort : (lengthOf img i).toNat < 0xFFFFFF00) (left : Nat) {s : Initrd} {offset : Word}
    {out : List (List Byte)} (hs : Undisturbed img location t s) (hoff : offset ≤ lengthOf img i)
    (hleft : (lengthOf img i).toNat - offset.toNat ≤ left) :
    ∃ fuel s' out', catLoop sym (fileNode t.rootNodes i) buffer fuel offset s out =
      some (lengthOf img i, s', out') := by
  induction left using Nat.strongRecOn generalizing s offset out with
  | ind left ih =>
    obtain ⟨s', s'', text, hs'', hround⟩ := catLoop_round hm hlen hsym hs hi hbuf offset out
    obtain ⟨hadd, hnext, hzero⟩ := chunk_below hshort hoff
    rcases Decidable.em (chunk (lengthOf img i) offset = 0#32) with hstop | hgo
    · refine ⟨1, s', out, ?_⟩
      rw [hround 0, if_pos hstop, hzero.mp hstop]
    · have hpos : 0 < (chunk (lengthOf img i) offset).toNat :=
        Nat.pos_of_ne_zero fun h0 => hgo (BitVec.eq_of_toNat_eq h0)
      have hnext' : offset.toNat + (chunk (lengthOf img i) offset).toNat ≤ (lengthOf img i).toNat := by
        rw [← hadd]
        exact hnext
      obtain ⟨fuel, s₁, out₁, hrest⟩ := ih
        ((lengthOf img i).toNat - (offset + chunk (lengthOf img i) offset).toNat) (by omega)
        hs'' hnext (Nat.le_refl _)
      refine ⟨fuel + 1, s₁, out₁, ?_⟩
      rw [hround fuel, if_neg hgo, hrest]

/-- A long file: however many rounds the loop has made, it goes on. -/
theorem catLoop_forever (hm : Mounted sym location img bs s₀ t root r d k)
    (hlen : 4 + 73 * (countOf img).toNat ≤ img.length) (hsym : sym.read ≠ 0#32)
    (hi : i < (countOf img).toNat) (hbuf : BufferApart img location buffer bs)
    (hlong : 0xFFFFFF00 ≤ (lengthOf img i).toNat) (fuel : Nat) {s : Initrd} {offset : Word}
    {out : List (List Byte)} (hs : Undisturbed img location t s) (hoff : offset.toNat % 256 = 0) :
    catLoop sym (fileNode t.rootNodes i) buffer fuel offset s out = none := by
  induction fuel generalizing s offset out with
  | zero => rfl
  | succ fuel ih =>
    obtain ⟨_, s'', text, hs'', hround⟩ := catLoop_round hm hlen hsym hs hi hbuf offset out
    obtain ⟨hfull, hnext⟩ := chunk_wraps hlong hoff
    rw [hround fuel, hfull, if_neg (by decide)]
    exact ih hs'' hnext

/-- The loop of `cat` on the node of file `i` ends, with `offset` at the length of the
file. -/
def CatEnds (sym : InitrdSymbols) (img : List Byte) (i : Nat) (buffer : Word) (s : Initrd) : Prop :=
  ∃ fuel s' out, catLoop sym (fileNode s.rootNodes i) buffer fuel 0#32 s [] =
    some (lengthOf img i, s', out)

theorem Mounted.catEnds_iff (hm : Mounted sym location img bs s₀ t root r d k)
    (hlen : 4 + 73 * (countOf img).toNat ≤ img.length) (hsym : sym.read ≠ 0#32)
    (hi : i < (countOf img).toNat) (hbuf : BufferApart img location buffer bs)
    (hs : Undisturbed img location t s) :
    CatEnds sym img i buffer s ↔ (lengthOf img i).toNat < 0xFFFFFF00 := by
  unfold CatEnds
  rw [hs.rootNodes]
  constructor
  · rintro ⟨fuel, s', out, hloop⟩
    refine Nat.not_le.mp fun hlong => ?_
    rw [catLoop_forever hm hlen hsym hi hbuf hlong fuel hs rfl] at hloop
    cases hloop
  · intro hshort
    exact catLoop_ends hm hlen hsym hi hbuf hshort _ hs (Nat.zero_le _) (Nat.le_refl _)

/-- For every image that `initrd_init` has accepted, whatever its headers say, and every
file in it: the loop ends, at the end of the file, exactly when the length in the header is
less than `2^32 - 256`. -/
theorem cat_terminates_iff (ho : Owns s₀.heap bs) (hp : Placed img location s₀.heap.mem bs)
    (hlen : 4 + 73 * (countOf img).toNat ≤ img.length)
    (hinit : initrdInit sym location s₀ = some (root, t)) (hroot : root ≠ 0#32)
    (hs : Undisturbed img location t s) (hsym : sym.read ≠ 0#32)
    (hbuf : BufferApart img location buffer bs) (hi : i < (countOf img).toNat) :
    CatEnds sym img i buffer s ↔ (lengthOf img i).toNat < 0xFFFFFF00 := by
  rcases initrdInit_cases ho hp hlen hinit with hnull | ⟨r, d, k, hm⟩
  · exact absurd hnull hroot
  · exact hm.catEnds_iff hlen hsym hi hbuf hs

/-- The lookup of a file by its name in the image. -/
theorem Mounted.find_file (hm : Mounted sym location img bs s₀ t root r d k)
    (hdistinct : ((List.range (countOf img).toNat).map (fileName img)).Nodup)
    (hdev : ∀ i, i < (countOf img).toNat → fileName img i ≠ devName)
    (hfinddir : sym.finddir ≠ 0#32) (htree : TreeIntact t s) (hi : i < (countOf img).toNat)
    {filename : Word} (hfilename : filename ≠ 0#32)
    (hname : NameIs s.heap.mem filename (fileName img i)) :
    fsFinddir sym root filename s = some (fileNode s.rootNodes i) ∧
      fileNode s.rootNodes i ≠ 0#32 := by
  have hnames := storedNames_image hm
  have hi' : i < t.nrootNodes.toNat := hm.count ▸ hi
  have hentry := entries_file s (htree.nrootNodes ▸ hi')
  have hstored : storedName s i = fileName img i := by
    have hget : (storedNames t)[i]? = some (fileName img i) := by
      rw [hnames, List.getElem?_map, List.getElem?_range hi]
      rfl
    rw [storedNames, List.getElem?_map, List.getElem?_range hi'] at hget
    exact (hm.storedName_eq htree hi').trans (Option.some.inj hget)
  have hnodup : ((entries s).map DirEntry.name).Nodup := by
    rw [hm.entries_eq htree]
    refine entries_nodup (hnames ▸ hdistinct) fun hmem => ?_
    rw [hnames] at hmem
    obtain ⟨j, hj, heq⟩ := List.mem_map.mp hmem
    exact hdev j (List.mem_range.mp hj) heq
  have hl := hm.rootListed htree
  exact ⟨fsFinddir_entry hl hfinddir hnodup hentry hfilename (hstored ▸ hname),
    (hl.nodes _ hentry).1⟩

/-- The command line has the name of a file. -/
theorem filename_nonempty {filename : Word} (hname : NameIs s.heap.mem filename (fileName img i))
    (hne : fileName img i ≠ []) : s.heap.mem filename ≠ 0#8 := by
  have hpos : 0 < (fileName img i).length := List.length_pos_of_ne_nil hne
  have hbyte := hname.getElem hpos
  rw [BitVec.add_zero] at hbyte
  rw [hbyte]
  exact fun hzero => cstring_nul _ _ (hzero ▸ List.getElem_mem hpos)

/-- `cat` with the name of a file returns exactly when the file is that short. -/
theorem shellCat_returns_iff (ho : Owns s₀.heap bs) (hp : Placed img location s₀.heap.mem bs)
    (hlen : 4 + 73 * (countOf img).toNat ≤ img.length)
    (hinit : initrdInit sym location s₀ = some (root, t)) (hroot : root ≠ 0#32)
    (hdistinct : ((List.range (countOf img).toNat).map (fileName img)).Nodup)
    (hdev : ∀ i, i < (countOf img).toNat → fileName img i ≠ devName) (hsym : sym.read ≠ 0#32)
    (hfinddir : sym.finddir ≠ 0#32) (hs : Undisturbed img location t s) (htree : TreeIntact t s)
    (hbuf : BufferApart img location buffer bs) (hi : i < (countOf img).toNat) {filename : Word}
    (hfilename : filename ≠ 0#32) (hname : NameIs s.heap.mem filename (fileName img i))
    (hne : fileName img i ≠ []) :
    (∃ fuel out s', shellCat sym root filename buffer fuel s = some (out, s')) ↔
      (lengthOf img i).toNat < 0xFFFFFF00 := by
  rcases initrdInit_cases ho hp hlen hinit with hnull | ⟨r, d, k, hm⟩
  · exact absurd hnull hroot
  obtain ⟨hfind, hnode⟩ := hm.find_file hdistinct hdev hfinddir htree hi hfilename hname
  have hfirst := filename_nonempty hname hne
  have hcall : ∀ fuel, shellCat sym root filename buffer fuel s =
      (catLoop sym (fileNode s.rootNodes i) buffer fuel 0#32 s []).map fun (_, s, out) =>
        (out ++ [literal "\n"], s) := by
    intro fuel
    rw [shellCat, if_neg hroot, if_neg (not_or.mpr ⟨hfilename, hfirst⟩), hfind, Option.bind_some,
      if_neg hnode]
  constructor
  · rintro ⟨fuel, out, s', hreturns⟩
    refine Nat.not_le.mp fun hlong => ?_
    rw [hcall, hs.rootNodes, catLoop_forever hm hlen hsym hi hbuf hlong fuel hs rfl] at hreturns
    cases hreturns
  · intro hshort
    obtain ⟨fuel, s', out, hloop⟩ := (hm.catEnds_iff hlen hsym hi hbuf hs).mpr hshort
    exact ⟨fuel, _, _, by rw [hcall, hloop]; rfl⟩

end Loop

/-! ## A file without an end -/

/-- An image with one file, whose header gives the length `2^32 - 256`. -/
def endlessImage : List Byte :=
  le32 1#32 ++ (0xBF#8 :: List.replicate 64 0#8) ++ le32 77#32 ++ le32 0xFFFFFF00#32

theorem endlessImage_placed :
    Placed endlessImage 0x1000000#32 (freshInitrd 0x1000000#32 endlessImage).heap.mem [] :=
  freshInitrd_placed (by decide) (by decide)

theorem endlessImage_accepted :
    ∃ root t, initrdInit exampleSymbols 0x1000000#32 (freshInitrd 0x1000000#32 endlessImage) =
      some (root, t) ∧ root ≠ 0#32 := by
  have hcount := endlessImage_placed.count (by decide)
  exact initrdInit_fresh _ _ rfl (by decide) (by rw [hcount]; decide)

/-- A buffer behind the heap and the image. -/
theorem endlessImage_buffer : BufferApart endlessImage 0x1000000#32 0x2000000#32 [] := by
  have haddr : ∀ j, j < 257 → (0x2000000#32 + BitVec.ofNat 32 j).toNat = 0x2000000 + j :=
    fun j hj => toNat_add_ofNat (a := 0x2000000#32)
      (by simp only [BitVec.toNat_ofNat, Nat.reducePow, Nat.reduceMod]; omega)
  refine ⟨by decide, fun j hj => Or.inr (Or.inl ?_), fun j k hj hk heq => ?_⟩
  · rw [haddr j hj]
    omega
  · have hk' : k < 77 := hk
    have hto := congrArg BitVec.toNat heq
    rw [haddr j hj, toNat_add_ofNat (a := 0x1000000#32)
      (by simp only [BitVec.toNat_ofNat, Nat.reducePow, Nat.reduceMod]; omega)] at hto
    simp only [BitVec.toNat_ofNat, Nat.reducePow, Nat.reduceMod] at hto
    omega

theorem cat_terminates_iff_endless :
    ∃ root t, initrdInit exampleSymbols 0x1000000#32 (freshInitrd 0x1000000#32 endlessImage) =
        some (root, t) ∧
      (CatEnds exampleSymbols endlessImage 0 0x2000000#32 t ↔
        (lengthOf endlessImage 0).toNat < 0xFFFFFF00) := by
  obtain ⟨root, t, hinit, hroot⟩ := endlessImage_accepted
  exact ⟨root, t, hinit, cat_terminates_iff (heapInit_owns _) endlessImage_placed (by decide) hinit
    hroot (Undisturbed.refl _ _ _) (by decide) endlessImage_buffer (by decide)⟩

/-- The image is accepted, and the loop on its file does not end, however long it runs. -/
theorem cat_forever :
    ∃ root t, initrdInit exampleSymbols 0x1000000#32 (freshInitrd 0x1000000#32 endlessImage) =
        some (root, t) ∧ root ≠ 0#32 ∧
      (∀ fuel, catLoop exampleSymbols (fileNode t.rootNodes 0) 0x2000000#32 fuel 0#32 t [] = none) ∧
      ¬ CatEnds exampleSymbols endlessImage 0 0x2000000#32 t := by
  obtain ⟨root, t, hinit, hroot⟩ := endlessImage_accepted
  rcases initrdInit_cases (heapInit_owns _) endlessImage_placed (by decide) hinit with
    hnull | ⟨r, d, k, hm⟩
  · exact absurd hnull hroot
  refine ⟨root, t, hinit, hroot, fun fuel => ?_, fun hends => ?_⟩
  · exact catLoop_forever hm (by decide) (by decide) (by decide) endlessImage_buffer (by decide) fuel
      (Undisturbed.refl _ _ _) rfl
  · have hshort := (hm.catEnds_iff (by decide) (by decide) (by decide) endlessImage_buffer
      (Undisturbed.refl _ _ _)).mp hends
    exact absurd hshort (by decide)

end Zenix
