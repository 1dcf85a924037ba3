import Zenix.Fs.InitrdReadBack
import Zenix.Mm.HeapUndo

/-!
# When `initrd_init` fails

The call gives back what it has allocated, but it works on the statics of the file
that is mounted: the number of nodes is stored before it is checked, and so is each
pointer that `kmalloc` returns.

Results:
1. `initrdInit_failure_heap`: a failed call leaves the block list and `heap_used` as
   they were.
2. `initrd_failure_iff`: it leaves the statics of an earlier root as they were only when
   it has refused the location.
3. `failure_hides_files`: after a second call on empty memory the first root has no
   files.
-/

namespace Zenix
open ByteMemory FirstFit

/-! ## The property -/

/-- The statics that the callbacks of the root read. -/
structure SameStatics (s t : Initrd) : Prop where
  nrootNodes : t.nrootNodes = s.nrootNodes
  rootNodes : t.rootNodes = s.rootNodes
  fileHeaders : t.fileHeaders = s.fileHeaders
  initrdRoot : t.initrdRoot = s.initrdRoot
  initrdDev : t.initrdDev = s.initrdDev

/-- Neither the heap nor what is mounted has changed. -/
structure InitUndone (s t : Initrd) : Prop where
  heap : SameBlocks s.heap t.heap
  statics : SameStatics s t

/-- An earlier call has succeeded, and its root is still mounted. -/
def LeftByInit (sym : InitrdSymbols) (s : Initrd) : Prop :=
  ∃ location s₀ root s₁, initrdInit sym location s₀ = some (root, s₁) ∧ root ≠ 0#32 ∧
    SameStatics s₁ s

/-! ## The statics -/

/-- What a call that has succeeded has stored. -/
theorem LeftByInit.nonzero {sym : InitrdSymbols} {s : Initrd} (h : LeftByInit sym s) :
    ¬ (s.nrootNodes = 0#32 ∨ 10#32 < s.nrootNodes) ∧ s.initrdRoot ≠ 0#32 ∧ s.initrdDev ≠ 0#32 ∧
      s.rootNodes ≠ 0#32 := by
  obtain ⟨location, s₀, root, s₁, hinit, hroot, hsame⟩ := h
  rw [hsame.nrootNodes, hsame.initrdRoot, hsame.initrdDev, hsame.rootNodes]
  cases initrdInit_outcome hinit with
  | low _ => exact absurd rfl hroot
  | badCount _ _ _ => exact absurd rfl hroot
  | noRoot _ _ => exact absurd rfl hroot
  | noDev _ _ _ _ _ => exact absurd rfl hroot
  | noNodes _ _ _ _ _ _ _ _ => exact absurd rfl hroot
  | done hok _ hr _ hd _ hk => exact ⟨hok.range, hr, hd, hk⟩

/-- Every failure but the first has stored a value that no successful call stores. -/
theorem failure_statics_iff {sym : InitrdSymbols} {location : Word} {s t : Initrd}
    (hleft : LeftByInit sym s) (h : InitOutcome sym location s 0#32 t) :
    SameStatics s t ↔ location < 0x100000#32 := by
  obtain ⟨hrange, hroot, hdev, hnodes⟩ := hleft.nonzero
  cases h with
  | low hlow => exact iff_of_true ⟨rfl, rfl, rfl, rfl, rfl⟩ hlow
  | badCount hhigh _ hbad => exact iff_of_false (fun hs => hrange (hs.nrootNodes ▸ hbad)) hhigh
  | noRoot hok _ => exact iff_of_false (fun hs => hroot hs.initrdRoot.symm) hok.high
  | noDev hok _ _ _ _ => exact iff_of_false (fun hs => hdev hs.initrdDev.symm) hok.high
  | noNodes hok _ _ _ _ _ _ _ => exact iff_of_false (fun hs => hnodes hs.rootNodes.symm) hok.high
  | done _ _ hr _ _ _ _ => exact absurd rfl hr

/-! ## The heap -/

/-- Whichever allocation fails, the ones before it are given back. -/
theorem initrdInit_failure_heap {sym : InitrdSymbols} {location : Word} {s t : Initrd}
    {bs : List Block} (ho : Owns s.heap bs) (h : InitOutcome sym location s 0#32 t) :
    SameBlocks s.heap t.heap := by
  cases h with
  | low _ => exact ho.sameBlocks ho
  | badCount _ _ _ => exact ho.sameBlocks ho
  | noRoot _ hk =>
    rcases ho.kmalloc hk with ⟨_, rfl⟩ | ⟨_, hp, _⟩
    · exact ho.sameBlocks ho
    · exact absurd rfl hp
  | noDev _ hk₁ hr hk₂ hf =>
    rcases ho.kmallocFill (by decide) (fun m p hp => initRootNode_sameOff hp sym) hk₁ with
      ⟨hnull, _⟩ | ⟨r, _, rfl, _, _, ho₁, _⟩
    · exact absurd hnull hr
    rcases ho₁.kmalloc hk₂ with ⟨_, rfl⟩ | ⟨_, hq, _⟩
    · obtain ⟨h₃, hf', ho₃, _⟩ := ho₁.kfree List.mem_cons_self
      cases hf'.symm.trans hf
      rw [List.erase_cons_head] at ho₃
      exact ho.sameBlocks ho₃
    · exact absurd rfl hq
  | noNodes _ hk₁ hr hk₂ hd hk₃ hf hf' =>
    rcases ho.kmallocFill (by decide) (fun m p hp => initRootNode_sameOff hp sym) hk₁ with
      ⟨hnull, _⟩ | ⟨r, _, rfl, _, _, ho₁, _⟩
    · exact absurd hnull hr
    rcases ho₁.kmallocFill (by decide) (fun m p hp => initDevNode_sameOff hp) hk₂ with
      ⟨hnull, _⟩ | ⟨d, _, rfl, _, _, ho₂, _⟩
    · exact absurd hnull hd
    rcases ho₂.kmalloc hk₃ with ⟨_, rfl⟩ | ⟨_, hq, _⟩
    · -- "dev" first, then the root
      obtain ⟨h₄, hfree, ho₄, _⟩ := ho₂.kfree List.mem_cons_self
      cases hfree.symm.trans hf
      rw [List.erase_cons_head] at ho₄
      obtain ⟨h₅, hfree', ho₅, _⟩ := ho₄.kfree List.mem_cons_self
      cases hfree'.symm.trans hf'
      rw [List.erase_cons_head] at ho₅
      exact ho.sameBlocks ho₅
    · exact absurd rfl hq
  | done _ _ hr _ _ _ _ => exact absurd rfl hr

/-- In every state of the heap, with an earlier root mounted: a call that returns NULL
has undone everything exactly when it has refused the location. The heap is as before
in any case. -/
theorem initrd_failure_iff {sym : InitrdSymbols} {location : Word} {s t : Initrd}
    {live : List (Word × Word)} (hreach : heapSystem.Reachable ⟨s.heap, live⟩)
    (hleft : LeftByInit sym s) (h : initrdInit sym location s = some (0#32, t)) :
    SameBlocks s.heap t.heap ∧ (InitUndone s t ↔ location < 0x100000#32) := by
  obtain ⟨cs, hs⟩ := reachable_run hreach
  have hout := initrdInit_outcome h
  have hheap := initrdInit_failure_heap hs.heap.owns hout
  refine ⟨hheap, ?_⟩
  rw [← failure_statics_iff hleft hout]
  exact ⟨fun hu => hu.statics, fun hst => ⟨hheap, hst⟩⟩

/-! ## A second call -/

/-- A low location, with a fresh heap. -/
theorem initrd_failure_iff_low :
    ∃ s t, LeftByInit exampleSymbols s ∧ initrdInit exampleSymbols 0#32 s = some (0#32, t) ∧
      SameBlocks s.heap t.heap ∧ (InitUndone s t ↔ 0#32 < 0x100000#32) := by
  obtain ⟨root, t, hinit, hroot⟩ := packedImage_accepted
  have hleft : LeftByInit exampleSymbols { t with heap := heapInit fun _ => 0#8 } :=
    ⟨_, _, root, t, hinit, hroot, rfl, rfl, rfl, rfl, rfl⟩
  have hreach : heapSystem.Reachable ⟨heapInit fun _ => 0#8, []⟩ := .init ⟨_, rfl⟩
  have hcall : initrdInit exampleSymbols 0#32 { t with heap := heapInit fun _ => 0#8 } =
      some (0#32, { t with heap := heapInit fun _ => 0#8 }) := if_pos (by decide)
  exact ⟨_, _, hleft, hcall, initrd_failure_iff hreach hleft hcall⟩

/-- The image of one file is mounted; memory at `0x2000000` is zero, so the second call
finds no files there and returns NULL, and the first root has lost its file. -/
theorem failure_hides_files :
    ∃ root t t', initrdInit exampleSymbols 0x1000000#32 (freshInitrd 0x1000000#32 packedImage) =
        some (root, t) ∧ root ≠ 0#32 ∧
      initrdInit exampleSymbols 0x2000000#32 t = some (0#32, t') ∧
      t.nrootNodes = 1#32 ∧ t'.nrootNodes = 0#32 ∧ ¬ InitUndone t t' := by
  obtain ⟨root, t, hinit, hroot, r, d, k, hmounted⟩ := packedImage_mounted
  have hcount : t.nrootNodes = 1#32 := hmounted.count.trans (by decide)
  have hword : fourBytes t.heap.mem 0x2000000#32 = 0#32 := by
    have hbyte : ∀ k, k < 4 → t.heap.mem (0x2000000#32 + BitVec.ofNat 32 k) = 0#8 := by
      intro k hk
      have haddr : (0x2000000#32 + BitVec.ofNat 32 k).toNat = 0x2000000 + k :=
        toNat_add_ofNat (by rw [show (0x2000000#32 : Word).toNat = 0x2000000 from rfl]; omega)
      have hdist : (0x2000000#32 + BitVec.ofNat 32 k - 0x1000000#32).toNat = 0x1000000 + k := by
        bv_omega
      have hkept := hmounted.kept (0x2000000#32 + BitVec.ofNat 32 k)
        (Or.inr (Or.inl (by rw [haddr]; omega)))
      have hfresh := heapInit_sameOff (memOf 0x1000000#32 packedImage)
        (0x2000000#32 + BitVec.ofNat 32 k) (Or.inr (by rw [haddr]; omega))
      refine hkept.trans (hfresh.trans ?_)
      rw [memOf, hdist]
      exact List.getD_eq_default _ _ (Nat.le_trans (by decide) (Nat.le_add_right 0x1000000 k))
    have h₀ := hbyte 0 (by decide)
    rw [BitVec.add_zero] at h₀
    rw [fourBytes, h₀, hbyte 1 (by decide), hbyte 2 (by decide), hbyte 3 (by decide)]
    decide
  have hagain : initrdInit exampleSymbols 0x2000000#32 t =
      some (0#32, { t with nrootNodes := fourBytes t.heap.mem 0x2000000#32 }) := by
    rw [initrdInit, if_neg (by decide)]
    dsimp only
    rw [hword, if_pos (Or.inl rfl)]
  refine ⟨root, t, _, hinit, hroot, hagain, hcount, hword, fun hundone => ?_⟩
  have hlost := hundone.statics.nrootNodes
  dsimp only at hlost
  rw [hword, hcount] at hlost
  exact absurd hlost (by decide)

end Zenix
