import Zenix.Mm.HeapClient
import Zenix.Mm.HeapGaps

/-!
# Undoing an allocation

The used blocks determine the block list, so a release that takes the last
allocation out of the used blocks restores the whole list.

Results:
1. `Owns.sameBlocks`: heaps with the same used blocks have the same block list and
   the same `heap_used`.
2. `kfree_kmalloc`: `kfree` right after `kmalloc` restores both.
-/

namespace Zenix
open ByteMemory FirstFit

/-- The used blocks of a heap stand in the order of their addresses. -/
theorem usedBlocks_eq_of_perm {cs ds : List Chunk}
    (h : (usedBlocks 12 0x400000 cs).Perm (usedBlocks 12 0x400000 ds)) :
    usedBlocks 12 0x400000 cs = usedBlocks 12 0x400000 ds := by
  have hsorted : ∀ es : List Chunk, (usedBlocks 12 0x400000 es).Pairwise fun b c =>
      b.addr + 12 + b.size ≤ c.addr := fun es => (layout_pairwise 12 0x400000 es).filter _
  refine h.eq_of_pairwise ?_ (hsorted cs) (hsorted ds)
  intro b c _ _ hbc hcb
  omega

theorem Owns.sameBlocks {h h' : Heap} {bs : List Block} (ho : Owns h bs) (ho' : Owns h' bs) :
    SameBlocks h h' := by
  obtain ⟨cs, hr, hperm⟩ := ho
  obtain ⟨ds, hr', hperm'⟩ := ho'
  obtain rfl := hr.ext hr' (usedBlocks_eq_of_perm (hperm.trans hperm'.symm))
  exact hr.sameBlocks hr'

/-- The last allocation can be taken back. -/
theorem Owns.undo {h h' : Heap} {bs : List Block} (ho : Owns h bs) {n p : Word}
    (hk : Zenix.kmalloc n h = some (p, h')) (hp : p ≠ 0#32) :
    ∃ h'', Zenix.kfree p h' = some h'' ∧ SameBlocks h h'' := by
  rcases ho.kmalloc hk with ⟨hnull, _⟩ | ⟨b, _, rfl, _, _, ho', _⟩
  · exact absurd hnull hp
  · obtain ⟨h'', hfree, ho'', _⟩ := ho'.kfree List.mem_cons_self
    rw [List.erase_cons_head] at ho''
    exact ⟨h'', hfree, ho.sameBlocks ho''⟩

/-- In every reachable state, whatever the fragmentation, `kfree(kmalloc(n))` leaves
the addresses, sizes and flags of all blocks and `heap_used` as they were. -/
theorem kfree_kmalloc {s : HeapRun} (h : heapSystem.Reachable s) {n p : Word} {h' : Heap}
    (hk : kmalloc n s.heap = some (p, h')) (hp : p ≠ 0#32) :
    ∃ h'', kfree p h' = some h'' ∧ SameBlocks s.heap h'' := by
  obtain ⟨cs, hs⟩ := reachable_run h
  exact hs.heap.owns.undo hk hp

/-- One word, taken from the fresh heap and given back. -/
theorem kfree_kmalloc_fresh :
    ∃ p h', kmalloc 4#32 (heapInit fun _ => 0#8) = some (p, h') ∧ p ≠ 0#32 ∧
      ∃ h'', kfree p h' = some h'' ∧ SameBlocks (heapInit fun _ => 0#8) h'' := by
  have hreach : heapSystem.Reachable ⟨heapInit fun _ => 0#8, []⟩ := .init ⟨_, rfl⟩
  obtain ⟨h', _, hk, _⟩ := fresh_twoWords
  exact ⟨_, h', hk, by decide, kfree_kmalloc hreach hk (by decide)⟩

end Zenix
