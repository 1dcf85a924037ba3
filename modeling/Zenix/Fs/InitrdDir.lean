import Zenix.Fs.Initrd

/-!
# Directories of the initrd (kernel/fs/initrd.c, kernel/fs/vfs.c)

`initrd_readdir` answers with the static `dirent` of the file, so every call overwrites
the entry that the one before has returned. `dirent` is where the linker has put it.

A call through a pointer of a node can be followed where it is the pointer to the function
of initrd.c. `none` is a call that cannot be followed, or a string without an end.
-/

namespace Zenix
open ByteMemory

/-- The string "dev". -/
def devName : List Byte := [0x64#8, 0x65#8, 0x76#8]

section Functions
variable (sym : InitrdSymbols) (dirent : Word)

/-! ## kernel/fs/initrd.c -/

def initrdReaddir (node index : Word) (s : Initrd) : Option (Word × Initrd) :=
  if node = 0#32 then some (0#32, s)
  else if node = s.initrdRoot ∧ index = 0#32 then
    let m := strcpyLiteral s.heap.mem dirent devName
    some (dirent, s.withMem (setDirentInode m dirent 0#32))
  else
    let index := if index = 0#32 then 1#32 else index
    if s.nrootNodes ≤ index - 1#32 then some (0#32, s)
    else
      let entry := fileNode s.rootNodes (index - 1#32).toNat
      (strcpy s.heap.mem dirent entry).map fun m =>
        (dirent, s.withMem (setDirentInode m dirent (nodeInode m entry)))

/-- `for (i = 0; i < nroot_nodes; i++)` in `initrd_finddir`, from `i` on, when `left` rounds
are left. -/
def finddirLoop (s : Initrd) (name : Word) : Nat → Nat → Option Word
  | 0, _ => some 0#32
  | left + 1, i =>
      (strcmp s.heap.mem name (fileNode s.rootNodes i)).bind fun d =>
        if d = 0 then some (fileNode s.rootNodes i) else finddirLoop s name left (i + 1)

def initrdFinddir (node name : Word) (s : Initrd) : Option Word :=
  if node = 0#32 ∨ name = 0#32 then some 0#32
  else if node = s.initrdRoot then
    (strcmpLiteral s.heap.mem name devName).bind fun d =>
      if d = 0 then some s.initrdDev else finddirLoop s name s.nrootNodes.toNat 0
  else finddirLoop s name s.nrootNodes.toNat 0

/-! ## kernel/fs/vfs.c -/

def fsRead (node offset size buffer : Word) (s : Initrd) : Option (Word × Initrd) :=
  if nodeRead s.heap.mem node ≠ 0#32 then callRead sym node offset size buffer s
  else some (0#32, s)

def fsReaddir (node index : Word) (s : Initrd) : Option (Word × Initrd) :=
  let m := s.heap.mem
  if nodeFlags m node &&& FS_DIRECTORY ≠ 0#32 ∧ nodeReaddir m node ≠ 0#32 then
    if nodeReaddir m node = sym.readdir then initrdReaddir dirent node index s else none
  else some (0#32, s)

def fsFinddir (node name : Word) (s : Initrd) : Option Word :=
  let m := s.heap.mem
  if nodeFlags m node &&& FS_DIRECTORY ≠ 0#32 ∧ nodeFinddir m node ≠ 0#32 then
    if nodeFinddir m node = sym.finddir then initrdFinddir node name s else none
  else some 0#32

end Functions

end Zenix
