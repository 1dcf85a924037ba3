import Zenix.Fs.InitrdDir
import Zenix.Fs.InitrdReadBack

/-!
# Listing and looking up the files of the initrd

`initrd_readdir` puts "dev" in front of the files and shifts their indices by one,
`initrd_finddir` tests for "dev" before it walks the table. Both answers are read off one
list of entries, with the names that are stored in the nodes.

Results:
1. `fsReaddir_entry`, `fsReaddir_end`: a call of `fs_readdir` answers with the entry at the
   index, or with NULL behind the last.
2. `fsFinddir_find`: a call of `fs_finddir` answers with the first entry of the name.
3. `storedNames_image`: the names are those of the image, where it stands in memory that the
   heap leaves alone.
4. `listing_agrees`: with distinct names, listing and lookup agree.
-/

namespace Zenix
open ByteMemory FirstFit

/-! ## The property -/

/-- An entry of the root directory: its name, the inode that `fs_readdir` answers with and
the node that `fs_finddir` answers with. -/
structure DirEntry where
  name : List Byte
  inode : Word
  node : Word

/-- The name that is stored in node `i`: at most 63 bytes. -/
def storedName (s : Initrd) (i : Nat) : List Byte :=
  stringAt s.heap.mem (fileNode s.rootNodes i) 63

def storedNames (s : Initrd) : List (List Byte) :=
  (List.range s.nrootNodes.toNat).map (storedName s)

/-- "dev" and the files, in the order of the table. -/
def entries (s : Initrd) : List DirEntry :=
  ⟨devName, 0#32, s.initrdDev⟩ :: (List.range s.nrootNodes.toNat).map fun i =>
    ⟨storedName s i, BitVec.ofNat 32 i, fileNode s.rootNodes i⟩

/-- `fs_readdir(root, index)`, `fs_readdir(root, index + 1)`, ... until it returns NULL. The
entry is read, and its name is looked up, before the next call overwrites it. -/
def enumerate (sym : InitrdSymbols) (dirent root : Word) :
    Nat → Word → Initrd → Option (List DirEntry × Initrd)
  | 0, _, _ => none
  | fuel + 1, index, s =>
      (fsReaddir sym dirent root index s).bind fun (entry, s) =>
        if entry = 0#32 then some ([], s)
        else
          (fsFinddir sym root entry s).bind fun node =>
            (enumerate sym dirent root fuel (index + 1#32) s).map fun (rest, s') =>
              (⟨stringAt s.heap.mem entry 128, direntInode s.heap.mem entry, node⟩ :: rest, s')

/-- Listing and lookup answer with the same entries. -/
structure ListingAgrees (sym : InitrdSymbols) (dirent root : Word) (s : Initrd) : Prop where
  listed : ∃ fuel s', enumerate sym dirent root fuel 0#32 s = some (entries s, s')
  nodes : ∀ e ∈ entries s, e.node ≠ 0#32 ∧ NameIs s.heap.mem e.node e.name ∧
    nodeInode s.heap.mem e.node = e.inode
  found : ∀ e ∈ entries s, ∀ p, p ≠ 0#32 → NameIs s.heap.mem p e.name →
    fsFinddir sym root p s = some e.node
  unlisted : ∀ p name, p ≠ 0#32 → 0#8 ∉ name → NameIs s.heap.mem p name →
    name ∉ (entries s).map DirEntry.name → fsFinddir sym root p s = some 0#32

/-- Since `t` neither the statics nor the nodes have changed. -/
structure TreeIntact (t s : Initrd) : Prop where
  initrdRoot : s.initrdRoot = t.initrdRoot
  initrdDev : s.initrdDev = t.initrdDev
  rootNodes : s.rootNodes = t.rootNodes
  nrootNodes : s.nrootNodes = t.nrootNodes
  root : SameOn t.heap.mem s.heap.mem t.initrdRoot.toNat (t.initrdRoot.toNat + 172)
  dev : SameOn t.heap.mem s.heap.mem t.initrdDev.toNat (t.initrdDev.toNat + 172)
  table : SameOn t.heap.mem s.heap.mem t.rootNodes.toNat
    (t.rootNodes.toNat + 172 * t.nrootNodes.toNat)

theorem TreeIntact.refl (t : Initrd) : TreeIntact t t :=
  ⟨rfl, rfl, rfl, rfl, SameOn.refl _ _ _, SameOn.refl _ _ _, SameOn.refl _ _ _⟩

/-- `dirent` lies in memory that the heap leaves alone. -/
structure DirentApart (dirent : Word) (bs : List Block) : Prop where
  nonnull : dirent ≠ 0#32
  fits : dirent.toNat + 132 ≤ 2 ^ 32
  client : ∀ j, j < 132 → ClientByte bs (dirent + BitVec.ofNat 32 j)

theorem storedName_nul (s : Initrd) (i : Nat) : 0#8 ∉ storedName s i := cstring_nul _ _

theorem storedName_length_le (s : Initrd) (i : Nat) : (storedName s i).length ≤ 63 :=
  cstring_length_le _ _

theorem entries_name {s : Initrd} {e : DirEntry} (he : e ∈ entries s) :
    0#8 ∉ e.name ∧ e.name.length ≤ 63 := by
  rcases List.mem_cons.mp he with rfl | he
  · exact ⟨(by decide : 0#8 ∉ devName), (by decide : devName.length ≤ 63)⟩
  · obtain ⟨i, _, rfl⟩ := List.mem_map.mp he
    exact ⟨storedName_nul s i, storedName_length_le s i⟩

/-! ## Names as strings -/

theorem NameIs.from {m : Mem} {p : Word} {name : List Byte} (h : NameIs m p name) (hnul : 0#8 ∉ name) :
    StringFrom (fun k => m (p + BitVec.ofNat 32 k)) 0 name := by
  refine ⟨fun k hk => ?_, ?_, hnul⟩
  · rw [Nat.zero_add]
    exact h.getElem hk
  · rw [Nat.zero_add]
    exact h.2

theorem nameIs_of_stringFrom {m : Mem} {p : Word} {name : List Byte}
    (h : StringFrom (fun k => m (p + BitVec.ofNat 32 k)) 0 name) : NameIs m p name := by
  obtain ⟨hchars, hstop, _⟩ := h
  simp only [Nat.zero_add] at hchars hstop
  exact ⟨fun k hk => (hchars k hk).trans (List.getD_eq_getElem _ _ hk).symm, hstop⟩

/-! ## The nodes -/

/-- What the functions read of the nodes. -/
structure RootListed (sym : InitrdSymbols) (root : Word) (s : Initrd) : Prop where
  nonnull : root ≠ 0#32
  initrdRoot : s.initrdRoot = root
  flags : nodeFlags s.heap.mem root = FS_DIRECTORY
  readdir : nodeReaddir s.heap.mem root = sym.readdir
  finddir : nodeFinddir s.heap.mem root = sym.finddir
  atMost : s.nrootNodes.toNat ≤ 10
  nodes : ∀ e ∈ entries s, e.node ≠ 0#32 ∧ NameIs s.heap.mem e.node e.name ∧
    nodeInode s.heap.mem e.node = e.inode
  devFlags : nodeFlags s.heap.mem s.initrdDev = FS_DIRECTORY
  fileFlags : ∀ i, i < s.nrootNodes.toNat → nodeFlags s.heap.mem (fileNode s.rootNodes i) = FS_FILE

/-- The root node as it was filled in. -/
theorem initRootNode_fields (sym : InitrdSymbols) (m : Mem) (root : Word) :
    nodeFlags (initRootNode sym m root) root = FS_DIRECTORY ∧
      nodeReaddir (initRootNode sym m root) root = sym.readdir ∧
      nodeFinddir (initRootNode sym m root) root = sym.finddir := by
  have hfar : ∀ (m : Mem) (j k : Nat) (v : Word), (j + 4 ≤ k ∨ k + 4 ≤ j) → j ≤ 168 → k ≤ 168 →
      load32 (store32 m (root + BitVec.ofNat 32 k) v) (root + BitVec.ofNat 32 j) =
        load32 m (root + BitVec.ofNat 32 j) := by
    intro m j k v hjk hj hk
    apply load32_store32_ne <;> bv_omega
  simp only [initRootNode, setFlags, setReaddir, setFinddir]
  refine ⟨?_, ?_, ?_⟩
  · rw [nodeFlags, hfar _ 128 164, hfar _ 128 160, load32_store32_same] <;> omega
  · rw [nodeReaddir, hfar _ 160 164, load32_store32_same] <;> omega
  · rw [nodeFinddir, load32_store32_same]

/-- A literal of `strcpy` is a string at its destination. -/
theorem strcpyLiteral_nameIs {m : Mem} {dest : Word} {name : List Byte} (h : name.length < 2 ^ 32) :
    NameIs (strcpyLiteral m dest name) dest name := by
  refine ⟨fun k hk => fill_apply (by omega) (by omega), ?_⟩
  rw [strcpyLiteral, fill_apply (by omega) (Nat.lt_succ_self _)]
  exact List.getD_eq_default _ _ (Nat.le_refl _)

theorem initDevNode_fields {m : Mem} {dev : Word} (h : dev.toNat + 172 ≤ 2 ^ 32) :
    NameIs (initDevNode m dev) dev devName ∧ nodeInode (initDevNode m dev) dev = 0#32 ∧
      nodeFlags (initDevNode m dev) dev = FS_DIRECTORY := by
  have haddr : ∀ k, k < 172 → (dev + BitVec.ofNat 32 k).toNat = dev.toNat + k :=
    fun k hk => toNat_add_ofNat (by omega)
  have hflags : SameOff (strcpyLiteral (memset m dev 0#8 172) dev devName) (initDevNode m dev)
      (dev.toNat + 128) (dev.toNat + 132) := store32_field_sameOff (by decide) h
  have hname : SameOff (memset m dev 0#8 172) (strcpyLiteral (memset m dev 0#8 172) dev devName)
      dev.toNat (dev.toNat + 4) := strcpyLiteral_sameOff (by rw [show devName.length = 3 from rfl]; omega)
  have hdev : NameIs (strcpyLiteral (memset m dev 0#8 172) dev devName) dev devName :=
    strcpyLiteral_nameIs (by decide)
  refine ⟨hdev.congr fun k hk => ?_, ?_, load32_store32_same _ _ _⟩
  · have hk3 : k ≤ 3 := hk
    have hk' := haddr k (by omega)
    exact hflags _ (by omega)
  · have hzero : load32 (memset m dev 0#8 172) (dev + BitVec.ofNat 32 132) = 0#32 :=
      load32_memset_zero h (by decide)
    have hinode := haddr 132 (by decide)
    rw [← hzero]
    have hsame : SameOn (memset m dev 0#8 172) (initDevNode m dev) (dev.toNat + 132)
        (dev.toNat + 172) := fun x hlo hhi => (hflags x (by omega)).trans (hname x (by omega))
    exact load32_congr hsame (by omega) (by omega) h

section Built
variable {sym : InitrdSymbols} {location root dirent : Word} {bs : List Block}
  {s₀ t s : Initrd} {r d k : Block}

/-- The root node, as long as it is left alone. -/
theorem TreeBuilt.rootFields (hb : TreeBuilt sym location bs s₀ t root r d k)
    (hs : TreeIntact t s) :
    root ≠ 0#32 ∧ nodeFlags s.heap.mem root = FS_DIRECTORY ∧
      nodeReaddir s.heap.mem root = sym.readdir ∧ nodeFinddir s.heap.mem root = sym.finddir := by
  have hr : r ∈ k :: d :: r :: bs := List.mem_cons_of_mem _ (List.mem_cons_of_mem _ List.mem_cons_self)
  have hpay := hb.owns.payload_toNat hr
  have hbd := hb.owns.bounds hr
  have hroom := hb.rootRoom
  obtain ⟨m, hfilled⟩ := hb.rootNode
  have hkept := hs.root
  rw [hb.initrdRoot] at hkept
  have hload : ∀ j, j + 4 ≤ 172 → load32 s.heap.mem (payload r + BitVec.ofNat 32 j) =
      load32 (initRootNode sym m (payload r)) (payload r + BitVec.ofNat 32 j) :=
    fun j hj => load32_record_congr (hfilled.trans hkept) hj (by omega)
  obtain ⟨hflags, hreaddir, hfinddir⟩ := initRootNode_fields sym m (payload r)
  rw [hb.isPayload]
  exact ⟨hb.owns.payload_ne_zero hr, (hload 128 (by decide)).trans hflags,
    (hload 160 (by decide)).trans hreaddir, (hload 164 (by decide)).trans hfinddir⟩

/-- The node of "dev". -/
theorem TreeBuilt.devFields (hb : TreeBuilt sym location bs s₀ t root r d k)
    (hs : TreeIntact t s) :
    s.initrdDev ≠ 0#32 ∧ NameIs s.heap.mem s.initrdDev devName ∧
      nodeInode s.heap.mem s.initrdDev = 0#32 ∧ nodeFlags s.heap.mem s.initrdDev = FS_DIRECTORY := by
  have hd : d ∈ k :: d :: r :: bs := List.mem_cons_of_mem _ List.mem_cons_self
  have hpay := hb.owns.payload_toNat hd
  have hbd := hb.owns.bounds hd
  have hroom := hb.devRoom
  obtain ⟨m, hfilled⟩ := hb.devNode
  have hkept := hs.dev
  rw [hb.initrdDev] at hkept
  have hsame := hfilled.trans hkept
  have hfit : (payload d).toNat + 172 ≤ 2 ^ 32 := by omega
  obtain ⟨hname, hinode, hflags⟩ := initDevNode_fields (m := m) hfit
  rw [hs.initrdDev, hb.initrdDev]
  refine ⟨hb.owns.payload_ne_zero hd, hname.congr fun j hj => ?_,
    (load32_record_congr hsame (by decide : 132 + 4 ≤ 172) (by omega)).trans hinode,
    (load32_record_congr hsame (by decide : 128 + 4 ≤ 172) (by omega)).trans hflags⟩
  have hj3 : j ≤ 3 := hj
  have haddr : (payload d + BitVec.ofNat 32 j).toNat = (payload d).toNat + j :=
    toNat_add_ofNat (by omega)
  exact hsame _ (by omega) (by omega)

/-- A string in a node, which ends behind it at the latest. -/
theorem nameIs_stringAt {m : Mem} {p : Word} {n : Nat} (hend : m (p + BitVec.ofNat 32 n) = 0#8) :
    NameIs m p (stringAt m p n) := by
  refine ⟨fun j hj => ?_, ?_⟩
  · rw [byteAt, List.getD_eq_getElem _ _ hj]
    exact (cstring_getElem hj).symm
  · rcases Nat.eq_or_lt_of_le (cstring_length_le (fun k => m (p + BitVec.ofNat 32 k)) n) with
      heq | hlt
    · rw [stringAt, heq, hend]
    · by_contra hne
      refine Nat.lt_irrefl _ (lt_cstring_length.mpr ⟨hlt, fun j hj => ?_⟩)
      rcases Nat.eq_or_lt_of_le hj with rfl | hj
      · exact hne
      · exact (lt_cstring_length.mp hj).2 j (Nat.le_refl j)

/-- The bytes of a node of the table stay. -/
theorem TreeBuilt.nodeSame (hb : TreeBuilt sym location bs s₀ t root r d k) (hs : TreeIntact t s)
    {i : Nat} (hi : i < t.nrootNodes.toNat) :
    SameOn t.heap.mem s.heap.mem (fileNode t.rootNodes i).toNat
      ((fileNode t.rootNodes i).toNat + 172) := by
  obtain ⟨haddr, _, _⟩ := hb.fileNode_fits hi
  exact hs.table.mono (by omega) (by omega)

theorem TreeBuilt.nameByte (hb : TreeBuilt sym location bs s₀ t root r d k) (hs : TreeIntact t s)
    {i j : Nat} (hi : i < t.nrootNodes.toNat) (hj : j ≤ 63) :
    s.heap.mem (fileNode t.rootNodes i + BitVec.ofNat 32 j) =
      t.heap.mem (fileNode t.rootNodes i + BitVec.ofNat 32 j) := by
  obtain ⟨_, _, hfit⟩ := hb.fileNode_fits hi
  have haddr : (fileNode t.rootNodes i + BitVec.ofNat 32 j).toNat =
      (fileNode t.rootNodes i).toNat + j := toNat_add_ofNat (by omega)
  exact hb.nodeSame hs hi _ (by omega) (by omega)

/-- So the names stay. -/
theorem TreeBuilt.storedName_eq (hb : TreeBuilt sym location bs s₀ t root r d k)
    (hs : TreeIntact t s) {i : Nat} (hi : i < t.nrootNodes.toNat) :
    storedName s i = storedName t i := by
  rw [storedName, storedName, hs.rootNodes]
  exact cstring_congr fun j hj => hb.nameByte hs hi (Nat.le_of_lt hj)

theorem TreeBuilt.entries_eq (hb : TreeBuilt sym location bs s₀ t root r d k)
    (hs : TreeIntact t s) : entries s = entries t := by
  rw [entries, entries, hs.initrdDev, hs.rootNodes, hs.nrootNodes]
  refine congrArg _ (List.map_congr_left fun i hi => ?_)
  rw [hb.storedName_eq hs (List.mem_range.mp hi)]

/-- The node of a file. -/
theorem TreeBuilt.fileFields (hb : TreeBuilt sym location bs s₀ t root r d k)
    (hs : TreeIntact t s) {i : Nat} (hi : i < t.nrootNodes.toNat) :
    fileNode s.rootNodes i ≠ 0#32 ∧ NameIs s.heap.mem (fileNode s.rootNodes i) (storedName s i) ∧
      ∃ length impl, FileNode sym s.heap.mem (fileNode s.rootNodes i) (BitVec.ofNat 32 i) length
        impl := by
  obtain ⟨_, hlo, hfit⟩ := hb.fileNode_fits hi
  obtain ⟨⟨length, impl, hnode⟩, hend⟩ := hb.served hi
  rw [storedName, hs.rootNodes]
  refine ⟨fun hnull => ?_, nameIs_stringAt ?_, length, impl, hnode.congr (hb.nodeSame hs hi) hfit⟩
  · rw [hnull] at hlo
    exact absurd hlo (by decide)
  · rw [hb.nameByte hs hi (Nat.le_refl 63), hend]

theorem TreeBuilt.rootListed (hb : TreeBuilt sym location bs s₀ t root r d k)
    (hs : TreeIntact t s) : RootListed sym root s := by
  obtain ⟨hnull, hflags, hreaddir, hfinddir⟩ := hb.rootFields hs
  obtain ⟨hdnull, hdname, hdinode, hdflags⟩ := hb.devFields hs
  have hfile : ∀ {i}, i < s.nrootNodes.toNat → i < t.nrootNodes.toNat :=
    fun hi => hs.nrootNodes ▸ hi
  refine ⟨hnull, ?_, hflags, hreaddir, hfinddir, hs.nrootNodes ▸ hb.atMost, fun e he => ?_, hdflags,
    fun i hi => ?_⟩
  · rw [hs.initrdRoot, hb.initrdRoot, hb.isPayload]
  · rcases List.mem_cons.mp he with rfl | he
    · exact ⟨hdnull, hdname, hdinode⟩
    · obtain ⟨i, hi, rfl⟩ := List.mem_map.mp he
      obtain ⟨hfnull, hfname, _, _, hnode⟩ := hb.fileFields hs (hfile (List.mem_range.mp hi))
      exact ⟨hfnull, hfname, hnode.inode⟩
  · obtain ⟨_, _, _, _, hnode⟩ := hb.fileFields hs (hfile hi)
    exact hnode.flags

/-- `dirent` does not meet the nodes of the files. -/
def NodesApart (dirent : Word) (s : Initrd) : Prop :=
  ∀ i a b, i < s.nrootNodes.toNat → a < 172 → b < 132 →
    fileNode s.rootNodes i + BitVec.ofNat 32 a ≠ dirent + BitVec.ofNat 32 b

theorem TreeBuilt.nodesApart (hb : TreeBuilt sym location bs s₀ t root r d k)
    (hdir : DirentApart dirent bs) (hs : TreeIntact t s) : NodesApart dirent s := by
  intro i a b hi ha hlt heq
  rw [hs.nrootNodes] at hi
  obtain ⟨haddr, _, hfit⟩ := hb.fileNode_fits hi
  have hnodup := hb.owns.nodup
  simp only [List.nodup_cons, List.mem_cons, not_or] at hnodup
  have hoff := clientByte_off_block hb.owns List.mem_cons_self
    (fun c hc => List.mem_cons_of_mem _ (List.mem_cons_of_mem _ (List.mem_cons_of_mem _ hc)))
    hnodup.1.2.2 hb.room (hdir.client b hlt)
  have hnode : (fileNode t.rootNodes i + BitVec.ofNat 32 a).toNat =
      (fileNode t.rootNodes i).toNat + a := toNat_add_ofNat (by omega)
  rw [hs.rootNodes] at heq
  rw [← heq, hnode] at hoff
  rw [hb.table] at haddr hoff
  omega

/-- A write to `dirent` leaves the nodes alone. -/
theorem TreeIntact.writeDirent (hb : TreeBuilt sym location bs s₀ t root r d k)
    (hdir : DirentApart dirent bs) (hs : TreeIntact t s) {m : Mem}
    (hw : ∀ x, (∀ j, j < 132 → x ≠ dirent + BitVec.ofNat 32 j) → m x = s.heap.mem x) :
    TreeIntact t (s.withMem m) := by
  have hnodup := hb.owns.nodup
  simp only [List.nodup_cons, List.mem_cons, not_or] at hnodup
  obtain ⟨⟨_, _, hk⟩, ⟨_, hd⟩, hr, _⟩ := hnodup
  have hkeep : ∀ b ∈ k :: d :: r :: bs, b ∉ bs → ∀ n, n ≤ b.size →
      SameOn s.heap.mem m (payload b).toNat ((payload b).toNat + n) := by
    intro b hmem hnew n hn x hlo hhi
    refine hw x fun j hj heq => ?_
    have hoff := clientByte_off_block hb.owns hmem
      (fun c hc => List.mem_cons_of_mem _ (List.mem_cons_of_mem _ (List.mem_cons_of_mem _ hc))) hnew hn
      (hdir.client j hj)
    rw [← heq] at hoff
    omega
  refine ⟨hs.initrdRoot, hs.initrdDev, hs.rootNodes, hs.nrootNodes, hs.root.trans ?_, hs.dev.trans ?_,
    hs.table.trans ?_⟩
  · rw [hb.initrdRoot]
    exact hkeep r (by simp) hr _ hb.rootRoom
  · rw [hb.initrdDev]
    exact hkeep d (by simp) hd _ hb.devRoom
  · have hroom := hb.room
    rw [hb.table]
    exact hkeep k List.mem_cons_self hk _ hroom

end Built

/-! ## `fs_readdir` -/

/-- The call has written the entry to `dirent`. -/
structure DirentWritten (dirent : Word) (e : DirEntry) (m₀ m : Mem) : Prop where
  name : NameIs m dirent e.name
  inode : direntInode m dirent = e.inode
  frame : ∀ x, (∀ j, j < 132 → x ≠ dirent + BitVec.ofNat 32 j) → m x = m₀ x

/-- The inode is written behind the name. -/
theorem DirentWritten.of_name {dirent : Word} {e : DirEntry} {m₀ m : Mem}
    (hfits : dirent.toNat + 132 ≤ 2 ^ 32) (hlen : e.name.length ≤ 63) (hname : NameIs m dirent e.name)
    (hframe : ∀ x, (∀ j, j ≤ e.name.length → x ≠ dirent + BitVec.ofNat 32 j) → m x = m₀ x) :
    DirentWritten dirent e m₀ (setDirentInode m dirent e.inode) := by
  have haddr : ∀ j, j < 132 → (dirent + BitVec.ofNat 32 j).toNat = dirent.toNat + j :=
    fun j hj => toNat_add_ofNat (by omega)
  have hinode : SameOff m (setDirentInode m dirent e.inode) (dirent.toNat + 128)
      (dirent.toNat + 132) := store32_field_sameOff (by decide) hfits
  refine ⟨hname.congr fun j hj => hinode _ ?_, load32_store32_same _ _ _, fun x hx => ?_⟩
  · have hj' := haddr j (by omega)
    omega
  · rw [← hframe x fun j hj => hx j (by omega)]
    refine hinode x ?_
    rcases Nat.lt_or_ge x.toNat (dirent.toNat + 128) with hlo | hlo
    · exact Or.inl hlo
    · rcases Nat.lt_or_ge x.toNat (dirent.toNat + 132) with hhi | hhi
      · have hj' := haddr (x.toNat - dirent.toNat) (by omega)
        exact absurd (BitVec.eq_of_toNat_eq (by omega)) (hx (x.toNat - dirent.toNat) (by omega))
      · exact Or.inr hhi

theorem entries_file (s : Initrd) {i : Nat} (hi : i < s.nrootNodes.toNat) :
    ⟨storedName s i, BitVec.ofNat 32 i, fileNode s.rootNodes i⟩ ∈ entries s :=
  List.mem_cons_of_mem _ (List.mem_map.mpr ⟨i, List.mem_range.mpr hi, rfl⟩)

theorem entries_length (s : Initrd) :
    (entries s).length = s.nrootNodes.toNat + 1 := by
  rw [entries, List.length_cons, List.length_map, List.length_range]

section Readdir
variable {sym : InitrdSymbols} {root dirent : Word} {s : Initrd}

theorem RootListed.fsReaddir_eq (hl : RootListed sym root s) (hsym : sym.readdir ≠ 0#32)
    (index : Word) : fsReaddir sym dirent root index s = initrdReaddir dirent root index s := by
  have hdir : nodeFlags s.heap.mem root &&& FS_DIRECTORY ≠ 0#32 := by
    rw [hl.flags]
    decide
  rw [fsReaddir, hl.readdir]
  exact (if_pos ⟨hdir, hsym⟩).trans (if_pos rfl)

/-- Behind the entries. -/
theorem fsReaddir_end (dirent : Word) (hl : RootListed sym root s) (hsym : sym.readdir ≠ 0#32) :
    fsReaddir sym dirent root (BitVec.ofNat 32 (entries s).length) s = some (0#32, s) := by
  have hten := hl.atMost
  have hindex : (BitVec.ofNat 32 (entries s).length).toNat = s.nrootNodes.toNat + 1 := by
    rw [toNat_ofNat_of_lt (by rw [entries_length]; omega), entries_length]
  have hne : BitVec.ofNat 32 (entries s).length ≠ 0#32 := by
    intro h
    rw [h] at hindex
    exact absurd hindex (by simp)
  have hback : BitVec.ofNat 32 (entries s).length - 1#32 = s.nrootNodes := by
    rw [entries_length]
    bv_omega
  rw [hl.fsReaddir_eq hsym, initrdReaddir, if_neg hl.nonnull, if_neg fun h => hne h.2]
  dsimp only
  rw [if_neg hne, hback, if_pos (BitVec.le_refl _)]

/-- `strcpy` of a name from a node that `dirent` does not overlap leaves the inode of the node
alone. -/
theorem RootListed.strcpy_name (hl : RootListed sym root s) (hapart : NodesApart dirent s)
    {i : Nat} (hi : i < s.nrootNodes.toNat) :
    ∃ m, strcpy s.heap.mem dirent (fileNode s.rootNodes i) = some m ∧
      NameIs m dirent (storedName s i) ∧
      nodeInode m (fileNode s.rootNodes i) = BitVec.ofNat 32 i ∧
      ∀ x, (∀ j, j ≤ (storedName s i).length → x ≠ dirent + BitVec.ofNat 32 j) →
        m x = s.heap.mem x := by
  have hlen := storedName_length_le s i
  obtain ⟨_, hname, hinode⟩ := hl.nodes _ (entries_file s hi)
  dsimp only at hname hinode
  obtain ⟨m, hcopy, hcopied, hframe⟩ := strcpyLoop_spec maxString 0 (hname.from (storedName_nul s i))
    (fun a b ha hb => hapart i a b hi (by omega) (by omega)) (by omega) (by rw [maxString]; omega)
  have hsame : ∀ x, (∀ j, j ≤ (storedName s i).length → x ≠ dirent + BitVec.ofNat 32 j) →
      m x = s.heap.mem x := fun x hx => hframe x fun j _ hj => hx j (by omega)
  have hkept : nodeInode m (fileNode s.rootNodes i) = BitVec.ofNat 32 i := by
    refine (load32_bytes fun j hj => ?_).trans hinode
    rw [BitVec.add_assoc, show 132#32 = BitVec.ofNat 32 132 from rfl, ofNat_add_ofNat]
    exact hsame _ fun b hb => hapart i _ b hi (by omega) (by omega)
  exact ⟨m, hcopy, nameIs_of_stringFrom hcopied, hkept, hsame⟩

/-- The entry at an index. -/
theorem fsReaddir_entry (hl : RootListed sym root s) (hsym : sym.readdir ≠ 0#32)
    (hfits : dirent.toNat + 132 ≤ 2 ^ 32) (hapart : NodesApart dirent s) {k : Nat}
    (hk : k < (entries s).length) :
    ∃ m, fsReaddir sym dirent root (BitVec.ofNat 32 k) s = some (dirent, s.withMem m) ∧
      DirentWritten dirent (entries s)[k] s.heap.mem m := by
  have hten := hl.atMost
  rw [hl.fsReaddir_eq hsym, initrdReaddir, if_neg hl.nonnull]
  cases k with
  | zero =>
    refine ⟨_, if_pos ⟨hl.initrdRoot.symm, rfl⟩, ?_⟩
    exact DirentWritten.of_name (e := ⟨devName, 0#32, s.initrdDev⟩) hfits
      (by decide : devName.length ≤ 63) (strcpyLiteral_nameIs (by decide)) fun x hx =>
        fill_other fun j hj => hx j (Nat.le_of_lt_succ hj)
  | succ i =>
    rw [entries_length] at hk
    have hi : i < s.nrootNodes.toNat := Nat.lt_of_succ_lt_succ hk
    have hiw : (BitVec.ofNat 32 i).toNat = i := toNat_ofNat_of_lt (by omega)
    have hback : BitVec.ofNat 32 (i + 1) - 1#32 = BitVec.ofNat 32 i := by bv_omega
    have hne : BitVec.ofNat 32 (i + 1) ≠ 0#32 := ofNat_ne_zero (by omega) (by omega)
    have hget : (entries s)[i + 1] = ⟨storedName s i, BitVec.ofNat 32 i, fileNode s.rootNodes i⟩ := by
      simp only [entries, List.getElem_cons_succ, List.getElem_map, List.getElem_range]
    obtain ⟨m, hcopy, hname, hinode, hframe⟩ := hl.strcpy_name hapart hi
    refine ⟨setDirentInode m dirent (BitVec.ofNat 32 i), ?_, ?_⟩
    · rw [if_neg fun h => hne h.2]
      dsimp only
      rw [if_neg hne, hback, if_neg (by rw [BitVec.le_def, hiw]; omega), hiw, hcopy, Option.map_some,
        hinode]
    · rw [hget]
      exact DirentWritten.of_name (e := ⟨storedName s i, BitVec.ofNat 32 i, fileNode s.rootNodes i⟩)
        hfits (storedName_length_le s i) hname hframe

end Readdir

/-! ## `fs_finddir` -/

section Finddir
variable {sym : InitrdSymbols} {root p : Word} {name : List Byte} {s : Initrd}
  (hp : NameIs s.heap.mem p name) (hnul : 0#8 ∉ name)
include hp hnul

/-- `strcmp` with the name of a file. -/
theorem strcmp_storedName {node : Word} {i : Nat} (hnode : NameIs s.heap.mem node (storedName s i)) :
    ∃ d, strcmp s.heap.mem p node = some d ∧ (d = 0 ↔ storedName s i = name) := by
  have hlen := storedName_length_le s i
  obtain ⟨d, hcmp, hd⟩ := strcmpLoop_spec maxString 0 (hp.from hnul)
    (hnode.from (storedName_nul s i)) (by rw [maxString]; omega)
  exact ⟨d, hcmp, hd.trans eq_comm⟩

theorem strcmp_dev :
    ∃ d, strcmpLiteral s.heap.mem p devName = some d ∧ (d = 0 ↔ devName = name) := by
  obtain ⟨d, hcmp, hd⟩ := strcmpLoop_spec maxString 0 (hp.from hnul)
    (stringFrom_getD (by decide : 0#8 ∉ devName)) (by decide)
  exact ⟨d, hcmp, hd.trans eq_comm⟩

/-- The loop finds the first file of the name. -/
theorem finddirLoop_find {left i : Nat} (hnodes : ∀ j, i ≤ j → j < i + left →
      NameIs s.heap.mem (fileNode s.rootNodes j) (storedName s j)) :
    finddirLoop s p left i = some
      ((((List.range' i left).find? fun j => storedName s j = name).map (fileNode s.rootNodes)).getD
        0#32) := by
  induction left generalizing i with
  | zero => rfl
  | succ left ih =>
    obtain ⟨d, hcmp, hd⟩ := strcmp_storedName hp hnul (hnodes i (Nat.le_refl i) (by omega))
    have hrest := ih (i := i + 1) fun j hlo hhi => hnodes j (by omega) (by omega)
    rw [finddirLoop, hcmp, Option.bind_some, List.range'_succ, List.find?_cons]
    rcases Decidable.em (storedName s i = name) with heq | hne
    · rw [if_pos (hd.mpr heq), decide_eq_true heq]
      rfl
    · rw [if_neg (mt hd.mp hne), decide_eq_false hne, hrest]

/-- A lookup answers with the first entry of the name. -/
theorem fsFinddir_find (hl : RootListed sym root s) (hsym : sym.finddir ≠ 0#32)
    (hnull : p ≠ 0#32) : fsFinddir sym root p s =
      some ((((entries s).find? fun e => e.name = name).map DirEntry.node).getD 0#32) := by
  have hdir : nodeFlags s.heap.mem root &&& FS_DIRECTORY ≠ 0#32 := by
    rw [hl.flags]
    decide
  have hcall : fsFinddir sym root p s = initrdFinddir root p s := by
    rw [fsFinddir, hl.finddir]
    exact (if_pos ⟨hdir, hsym⟩).trans (if_pos rfl)
  obtain ⟨d, hcmp, hd⟩ := strcmp_dev hp hnul
  rw [hcall, initrdFinddir, if_neg (not_or.mpr ⟨hl.nonnull, hnull⟩), if_pos hl.initrdRoot.symm, hcmp,
    Option.bind_some, entries, List.find?_cons]
  rcases Decidable.em (devName = name) with heq | hne
  · rw [if_pos (hd.mpr heq), decide_eq_true heq]
    rfl
  · have hnodes : ∀ j, 0 ≤ j → j < 0 + s.nrootNodes.toNat →
        NameIs s.heap.mem (fileNode s.rootNodes j) (storedName s j) := by
      intro j _ hj
      refine (hl.nodes ⟨storedName s j, BitVec.ofNat 32 j, fileNode s.rootNodes j⟩ ?_).2.1
      exact List.mem_cons_of_mem _ (List.mem_map.mpr ⟨j, List.mem_range.mpr (by omega), rfl⟩)
    rw [if_neg (mt hd.mp hne), decide_eq_false hne, finddirLoop_find hp hnul hnodes,
      List.range_eq_range', List.find?_map, Option.map_map]
    rfl

end Finddir

/-- Among entries with distinct names the first one of a name is the only one. -/
theorem find?_entry {es : List DirEntry} {e : DirEntry} (hdistinct : (es.map DirEntry.name).Nodup)
    (he : e ∈ es) : (es.find? fun e' => e'.name = e.name) = some e := by
  induction es with
  | nil => cases he
  | cons a es ih =>
    rw [List.map_cons, List.nodup_cons] at hdistinct
    rcases List.mem_cons.mp he with rfl | he
    · exact List.find?_cons_of_pos (decide_eq_true rfl)
    · have hne : a.name ≠ e.name := fun h => hdistinct.1 (h ▸ List.mem_map_of_mem he)
      rw [List.find?_cons_of_neg (by rwa [decide_eq_true_eq])]
      exact ih hdistinct.2 he

/-! ## Both together -/

section Listing
variable {sym : InitrdSymbols} {location root dirent : Word} {bs : List Block}
  {s₀ t s : Initrd} {r d k : Block}

/-- The lookup of an entry by its name. -/
theorem fsFinddir_entry (hl : RootListed sym root s) (hsym : sym.finddir ≠ 0#32)
    (hdistinct : ((entries s).map DirEntry.name).Nodup) {e : DirEntry} (he : e ∈ entries s)
    {p : Word} (hnull : p ≠ 0#32) (hp : NameIs s.heap.mem p e.name) :
    fsFinddir sym root p s = some e.node := by
  rw [fsFinddir_find hp (entries_name he).1 hl hsym hnull, find?_entry hdistinct he]
  rfl

/-- One round of a listing: the call overwrites `dirent` with the entry at the index, leaves
the tree as it is, and the name in `dirent` is found. -/
theorem listing_step (hb : TreeBuilt sym location bs s₀ t root r d k)
    (hdir : DirentApart dirent bs) (hreaddir : sym.readdir ≠ 0#32)
    (hfinddir : sym.finddir ≠ 0#32) (hdistinct : ((entries t).map DirEntry.name).Nodup)
    (hs : TreeIntact t s) {i : Nat} (hi : i < (entries t).length) :
    ∃ m, fsReaddir sym dirent root (BitVec.ofNat 32 i) s = some (dirent, s.withMem m) ∧
      TreeIntact t (s.withMem m) ∧
      fsFinddir sym root dirent (s.withMem m) = some (entries t)[i].node ∧
      stringAt m dirent 128 = (entries t)[i].name ∧
      direntInode m dirent = (entries t)[i].inode := by
  obtain ⟨m, hcall, hwritten⟩ := fsReaddir_entry (hb.rootListed hs) hreaddir hdir.fits
    (hb.nodesApart hdir hs) (by rw [hb.entries_eq hs]; exact hi)
  simp only [hb.entries_eq hs] at hwritten
  have hs' : TreeIntact t (s.withMem m) := hs.writeDirent hb hdir hwritten.frame
  have hmem : (entries t)[i] ∈ entries (s.withMem m) := by
    rw [hb.entries_eq hs']
    exact List.getElem_mem hi
  have hname := entries_name hmem
  refine ⟨m, hcall, hs', ?_, hwritten.name.stringAt_eq hname.1 (by omega), hwritten.inode⟩
  exact fsFinddir_entry (hb.rootListed hs') hfinddir (by rwa [hb.entries_eq hs']) hmem hdir.nonnull
    hwritten.name

/-- The call behind the last entry. -/
theorem listing_end (dirent : Word) (hb : TreeBuilt sym location bs s₀ t root r d k)
    (hreaddir : sym.readdir ≠ 0#32) (hs : TreeIntact t s) :
    fsReaddir sym dirent root (BitVec.ofNat 32 (entries t).length) s = some (0#32, s) := by
  have hend := fsReaddir_end dirent (hb.rootListed hs) hreaddir
  rwa [hb.entries_eq hs] at hend

theorem entries_names (s : Initrd) :
    (entries s).map DirEntry.name = devName :: storedNames s := by
  rw [entries, List.map_cons, List.map_map]
  rfl

/-- The names of the entries are distinct when those of the files are, and none is "dev". -/
theorem entries_nodup (hdistinct : (storedNames t).Nodup) (hdev : devName ∉ storedNames t) :
    ((entries t).map DirEntry.name).Nodup := by
  rw [entries_names, List.nodup_cons]
  exact ⟨hdev, hdistinct⟩

/-- From an index on, when `left` entries are left. -/
theorem enumerate_from (hb : TreeBuilt sym location bs s₀ t root r d k)
    (hdir : DirentApart dirent bs) (hreaddir : sym.readdir ≠ 0#32)
    (hfinddir : sym.finddir ≠ 0#32) (hdistinct : ((entries t).map DirEntry.name).Nodup)
    {left i : Nat} (hs : TreeIntact t s) (hleft : i + left = (entries t).length) :
    ∃ s', enumerate sym dirent root (left + 1) (BitVec.ofNat 32 i) s =
      some ((entries t).drop i, s') := by
  induction left generalizing i s with
  | zero =>
    have hend := listing_end dirent hb hreaddir hs
    rw [← hleft, Nat.add_zero] at hend
    refine ⟨s, ?_⟩
    rw [enumerate, hend, Option.bind_some, List.drop_of_length_le (by omega)]
    exact if_pos rfl
  | succ left ih =>
    have hi : i < (entries t).length := by omega
    obtain ⟨m, hcall, hs', hnode, htext, hinode⟩ :=
      listing_step hb hdir hreaddir hfinddir hdistinct hs hi
    obtain ⟨s', hrest⟩ := ih (i := i + 1) hs' (by omega)
    have hmem : (s.withMem m).heap.mem = m := rfl
    refine ⟨s', ?_⟩
    rw [enumerate, hcall, Option.bind_some]
    dsimp only
    rw [if_neg hdir.nonnull, hnode, Option.bind_some, ofNat_add_ofNat, hrest, Option.map_some, hmem,
      htext, hinode, List.drop_eq_getElem_cons hi]

/-- The names in the nodes are those in the headers, where the image is left alone. -/
theorem storedNames_image {img : List Byte} (hm : Mounted sym location img bs s₀ t root r d k) :
    storedNames t = (List.range (countOf img).toNat).map (fileName img) := by
  rw [storedNames, hm.count]
  refine List.map_congr_left fun i hi => ?_
  have hlen : (fileName img i).length ≤ 63 := cstring_length_le _ _
  have hname := (hm.names i (List.mem_range.mp hi)).stringAt_eq (cstring_nul _ _)
    (Nat.lt_succ_of_le hlen)
  have hend := (hm.served (hm.count ▸ List.mem_range.mp hi)).2
  exact ((nameIs_stringAt hend).stringAt_eq (storedName_nul t i)
    (Nat.lt_succ_of_le (storedName_length_le t i))).symm.trans hname

/-- For every image that `initrd_init` has accepted, whatever has become of it, where the stored
names are distinct and none is "dev": in every later state that has left the nodes alone, listing
the root yields "dev" and then the files in the order of the table, and looking up a name finds
exactly the entry that is listed under it. Where the image is left alone, the stored names are
those in its headers. -/
theorem listing_agrees (ho : Owns s₀.heap bs) (hinit : initrdInit sym location s₀ = some (root, t))
    (hroot : root ≠ 0#32) (hdistinct : (storedNames t).Nodup) (hdev : devName ∉ storedNames t)
    (hreaddir : sym.readdir ≠ 0#32) (hfinddir : sym.finddir ≠ 0#32) (hdir : DirentApart dirent bs)
    (hs : TreeIntact t s) :
    ListingAgrees sym dirent root s ∧
      (entries s).map DirEntry.name = devName :: storedNames t ∧
      ∀ img, Placed img location s₀.heap.mem bs → 4 + 73 * (countOf img).toNat ≤ img.length →
        storedNames t = (List.range (countOf img).toNat).map (fileName img) := by
  rcases initrdInit_built ho hinit with hnull | ⟨r, d, k, hb⟩
  · exact absurd hnull hroot
  have hl := hb.rootListed hs
  have hsame := hb.entries_eq hs
  have hnodup := entries_nodup hdistinct hdev
  have hnodup' : ((entries s).map DirEntry.name).Nodup := hsame ▸ hnodup
  refine ⟨⟨?_, hl.nodes, fun e he p hnull hname => ?_, fun p name hnull hnul hname hmissing => ?_⟩,
    hsame ▸ entries_names t, fun img hp hlen => storedNames_image (hb.mounted hp hlen)⟩
  · rw [hsame]
    obtain ⟨s', hlist⟩ := enumerate_from hb hdir hreaddir hfinddir hnodup hs (Nat.zero_add _)
    exact ⟨_, s', hlist⟩
  · exact fsFinddir_entry hl hfinddir hnodup' he hnull hname
  · rw [fsFinddir_find hname hnul hl hfinddir hnull, List.find?_eq_none.mpr fun e he heq => ?_]
    · rfl
    · rw [decide_eq_true_eq] at heq
      exact hmissing (heq ▸ List.mem_map_of_mem he)

end Listing

/-! ## Two files -/

/-- An image with the files "a" and "b". -/
def twoFilesImage : List Byte :=
  le32 2#32 ++ (0xBF#8 :: 0x61#8 :: List.replicate 63 0#8) ++ le32 150#32 ++ le32 1#32 ++
    (0xBF#8 :: 0x62#8 :: List.replicate 63 0#8) ++ le32 151#32 ++ le32 1#32 ++ [0x41#8, 0x42#8]

theorem twoFilesImage_placed :
    Placed twoFilesImage 0x1000000#32 (freshInitrd 0x1000000#32 twoFilesImage).heap.mem [] :=
  freshInitrd_placed (by decide) (by decide +kernel)

theorem twoFilesImage_mounted :
    ∃ root t, initrdInit exampleSymbols 0x1000000#32 (freshInitrd 0x1000000#32 twoFilesImage) =
        some (root, t) ∧ root ≠ 0#32 ∧ storedNames t = [[0x61#8], [0x62#8]] := by
  have hcount := twoFilesImage_placed.count (by decide +kernel)
  obtain ⟨root, t, hinit, hroot⟩ :=
    initrdInit_fresh exampleSymbols 0x1000000#32 (s := freshInitrd 0x1000000#32 twoFilesImage) rfl
      (by decide) (by rw [hcount]; decide +kernel)
  rcases initrdInit_cases (heapInit_owns _) twoFilesImage_placed (by decide +kernel) hinit with
    hnull | ⟨r, d, k, hmounted⟩
  · exact absurd hnull hroot
  · exact ⟨root, t, hinit, hroot, (storedNames_image hmounted).trans (by decide +kernel)⟩

/-- A place for `dirent` below the heap. -/
theorem lowDirent_apart : DirentApart 0x200000#32 [] := by
  refine ⟨by decide, by decide, fun j hj => Or.inl ?_⟩
  have haddr : (0x200000#32 + BitVec.ofNat 32 j).toNat = 0x200000 + j :=
    toNat_add_ofNat (a := 0x200000#32)
      (by simp only [BitVec.toNat_ofNat, Nat.reducePow, Nat.reduceMod]; omega)
  omega

theorem listing_agrees_two :
    ∃ root t, initrdInit exampleSymbols 0x1000000#32 (freshInitrd 0x1000000#32 twoFilesImage) =
        some (root, t) ∧ ListingAgrees exampleSymbols 0x200000#32 root t ∧
      (entries t).map DirEntry.name = [devName, [0x61#8], [0x62#8]] := by
  obtain ⟨root, t, hinit, hroot, hnames⟩ := twoFilesImage_mounted
  obtain ⟨hagrees, hlisted, _⟩ := listing_agrees (heapInit_owns _) hinit
    hroot (by rw [hnames]; decide) (by rw [hnames]; decide) (by decide) (by decide) lowDirent_apart
    (TreeIntact.refl t)
  exact ⟨root, t, hinit, hagrees, hnames ▸ hlisted⟩

end Zenix
