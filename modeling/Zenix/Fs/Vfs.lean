import Zenix.Lib.ByteImage

/-!
# Nodes of the file system (kernel/fs/vfs.h)

An `fs_node_t` is 172 bytes of memory: a name of 128 bytes, four words and seven
pointers. The model reads and writes the fields there.
-/

namespace Zenix
open ByteMemory

def FS_FILE : Word := 0x01#32
def FS_DIRECTORY : Word := 0x02#32

/-- `sizeof(fs_node_t)`. -/
def sizeofFsNode : Word := 172#32

/-! ## The fields of `fs_node_t` -/

def nodeFlags (m : Mem) (node : Word) : Word := load32 m (node + 128#32)
def nodeInode (m : Mem) (node : Word) : Word := load32 m (node + 132#32)
def nodeLength (m : Mem) (node : Word) : Word := load32 m (node + 136#32)
def nodeImpl (m : Mem) (node : Word) : Word := load32 m (node + 140#32)
def nodeRead (m : Mem) (node : Word) : Word := load32 m (node + 144#32)
def nodeReaddir (m : Mem) (node : Word) : Word := load32 m (node + 160#32)
def nodeFinddir (m : Mem) (node : Word) : Word := load32 m (node + 164#32)

def setFlags (m : Mem) (node v : Word) : Mem := store32 m (node + 128#32) v
def setInode (m : Mem) (node v : Word) : Mem := store32 m (node + 132#32) v
def setLength (m : Mem) (node v : Word) : Mem := store32 m (node + 136#32) v
def setImpl (m : Mem) (node v : Word) : Mem := store32 m (node + 140#32) v
def setRead (m : Mem) (node v : Word) : Mem := store32 m (node + 144#32) v
def setReaddir (m : Mem) (node v : Word) : Mem := store32 m (node + 160#32) v
def setFinddir (m : Mem) (node v : Word) : Mem := store32 m (node + 164#32) v

/-! ## The fields of `dirent_t` -/

def direntInode (m : Mem) (d : Word) : Word := load32 m (d + 128#32)

def setDirentInode (m : Mem) (d v : Word) : Mem := store32 m (d + 128#32) v

/-- The name of the node is the string `name`. -/
def NameIs (m : Mem) (node : Word) (name : List Byte) : Prop :=
  (∀ k, k < name.length → m (node + BitVec.ofNat 32 k) = byteAt name k) ∧
    m (node + BitVec.ofNat 32 name.length) = 0#8

/-- The string at `p`, which ends within `n` bytes. -/
def stringAt (m : Mem) (p : Word) (n : Nat) : List Byte :=
  cstring (fun k => m (p + BitVec.ofNat 32 k)) n

section Name
variable {m m' : Mem} {p : Word} {name : List Byte}

theorem NameIs.getElem (h : NameIs m p name) {k : Nat} (hk : k < name.length) :
    m (p + BitVec.ofNat 32 k) = name[k] :=
  (h.1 k hk).trans (List.getD_eq_getElem _ _ hk)

theorem NameIs.congr (h : NameIs m p name)
    (hm : ∀ k, k ≤ name.length → m' (p + BitVec.ofNat 32 k) = m (p + BitVec.ofNat 32 k)) :
    NameIs m' p name :=
  ⟨fun k hk => (hm k (Nat.le_of_lt hk)).trans (h.1 k hk), (hm _ (Nat.le_refl _)).trans h.2⟩

theorem NameIs.stringAt_eq (h : NameIs m p name) (hnul : 0#8 ∉ name) {n : Nat}
    (hlen : name.length < n) : stringAt m p n = name :=
  takeWhile_terminated hlen hnul (fun _ hk => h.getElem hk) h.2

/-- A buffer of `n` bytes, copied up to its first zero and filled up with zeros. -/
theorem nameIs_cstring {buffer : Nat → Byte} {n : Nat}
    (hcopy : ∀ k, k < n → m (p + BitVec.ofNat 32 k) =
      if ∀ a, a ≤ k → buffer a ≠ 0#8 then buffer k else 0#8)
    (hend : m (p + BitVec.ofNat 32 n) = 0#8) : NameIs m p (cstring buffer n) := by
  refine ⟨fun k hk => ?_, ?_⟩
  · obtain ⟨hkn, hne⟩ := lt_cstring_length.mp hk
    rw [hcopy k hkn, if_pos hne, byteAt, List.getD_eq_getElem _ _ hk, cstring_getElem hk]
  · rcases Nat.eq_or_lt_of_le (cstring_length_le buffer n) with heq | hlt
    · rw [heq, hend]
    · rw [hcopy _ hlt, if_neg fun hne => Nat.lt_irrefl _ (lt_cstring_length.mpr ⟨hlt, hne⟩)]

end Name

end Zenix
