import Zenix.Mm.PageWalk

/-!
# The TLB

The TLB is the list of cached translations. An access to a mapped page may add
that page's current translation, `invlpg` drops a page's translations, and
nothing else touches it. `paging_unmap_page` executes `invlpg`;
`paging_map_page` does not.

Results:
1. `tlb_coherent_iff`: in a run that remaps cached pages only to what they are
   already, every cached translation is the current one, and a call that does
   otherwise breaks this.
2. `remap_leaves_stale`: the dynamic mapping of `paging_test` is such a call
   when the page was accessed before.
-/

namespace Zenix
open ByteMemory

/-- The page tables and the cached translations. -/
structure TlbRun where
  paging : Paging
  tlb : List (BitVec 20 × Mapping)

inductive TlbOp where
  | map (virt phys flags : Word)
  | unmap (virt : Word)
  | access (virt : Word)

/-- `invlpg (virt)`. -/
def invlpg (virt : Word) (tlb : List (BitVec 20 × Mapping)) : List (BitVec 20 × Mapping) :=
  tlb.filter fun e => e.1 ≠ pageNumber virt

/-- What the calls and the accesses do. `paging_unmap_page` returns before its
`invlpg` when the directory entry is absent. -/
inductive TlbStep (pool : TablePool) : TlbRun → TlbOp → TlbRun → Prop
  | map {s : TlbRun} {virt phys flags : Word} {t : Paging} :
      pagingMapPage pool virt phys flags s.paging = some t →
      TlbStep pool s (.map virt phys flags) ⟨t, s.tlb⟩
  | unmap {s : TlbRun} {virt : Word} {t : Paging} :
      pagingUnmapPage pool virt s.paging = some t →
      TlbStep pool s (.unmap virt)
        ⟨t, if (s.paging.directory (pageDirIndex virt)).present = false then s.tlb
          else invlpg virt s.tlb⟩
  | access {s : TlbRun} {virt : Word} {e : Mapping} :
      pageWalk pool s.paging (pageNumber virt) = some e →
      TlbStep pool s (.access virt) ⟨s.paging, (pageNumber virt, e) :: s.tlb⟩

/-- Paging has just been enabled: loading the directory has emptied the TLB. -/
def tlbSystem (pool : TablePool) : TransitionSystem TlbRun TlbOp where
  init := fun s => (pagingSystem pool).init s.paging ∧ s.tlb = []
  step := TlbStep pool

/-- Every cached translation is the current one. -/
def Coherent (pool : TablePool) (s : TlbRun) : Prop :=
  ∀ n e, (n, e) ∈ s.tlb → pageWalk pool s.paging n = some e

/-- If the page is cached, it is mapped to what it is mapped to already. -/
def RemapsNothingCached (s : TlbRun) : TlbOp → Prop
  | .map virt phys flags => ∀ e, (pageNumber virt, e) ∈ s.tlb →
      hasFlag flags PAGE_PRESENT = true ∧
        e = ⟨frameOf phys, hasFlag flags PAGE_WRITE,
          (s.paging.directory (pageDirIndex virt)).user && hasFlag flags PAGE_USER⟩
  | _ => True

variable {pool : TablePool}

/-- A page with a translation has a directory entry. -/
theorem present_of_pageWalk {s : Paging} {virt : Word} {e : Mapping}
    (h : pageWalk pool s (pageNumber virt) = some e) :
    (s.directory (pageDirIndex virt)).present = true := by
  cases hp : (s.directory (pageDirIndex virt)).present with
  | true => rfl
  | false =>
    rw [pageWalk_none (pageMap_absent hp)] at h
    cases h

theorem granted_eq_some {s : Paging} {virt phys flags : Word} {e : Mapping}
    (hp : (s.directory (pageDirIndex virt)).present = true) :
    granted s virt phys flags = some e ↔
      hasFlag flags PAGE_PRESENT = true ∧
        e = ⟨frameOf phys, hasFlag flags PAGE_WRITE,
          (s.directory (pageDirIndex virt)).user && hasFlag flags PAGE_USER⟩ := by
  rw [granted, hp]
  cases hasFlag flags PAGE_PRESENT with
  | false => simp
  | true => simp [eq_comm]

/-- One call of `paging_map_page` on a coherent TLB. -/
theorem coherent_map_iff {s : TlbRun} {virt phys flags : Word} {t : Paging}
    (hinv : PagingInvariant pool s.paging) (hs : Coherent pool s)
    (h : pagingMapPage pool virt phys flags s.paging = some t) :
    Coherent pool ⟨t, s.tlb⟩ ↔ RemapsNothingCached s (.map virt phys flags) := by
  have hwalk := pageWalk_map hinv h
  have hpage : ∀ e, (pageNumber virt, e) ∈ s.tlb →
      (pageWalk pool t (pageNumber virt) = some e ↔
        hasFlag flags PAGE_PRESENT = true ∧
          e = ⟨frameOf phys, hasFlag flags PAGE_WRITE,
            (s.paging.directory (pageDirIndex virt)).user && hasFlag flags PAGE_USER⟩) := by
    intro e he
    -- a cached page has a table, so the call finds one
    have hp := present_of_pageWalk (hs _ e he)
    have hroom : ¬ Exhausted s.paging virt := fun hex => Bool.false_ne_true (hex.1.symm.trans hp)
    rw [hwalk, if_neg hroom, Function.update_self, granted_eq_some hp]
  constructor
  · intro ht e he
    exact (hpage e he).mp (ht _ e he)
  · intro hok n e he
    rcases Decidable.em (n = pageNumber virt) with rfl | hn
    · exact (hpage e he).mpr (hok e he)
    · have hsame : pageWalk pool t n = pageWalk pool s.paging n := by
        rw [hwalk]
        split
        · rfl
        · exact Function.update_of_ne hn _ _
      exact hsame.trans (hs n e he)

theorem coherent_unmap {s : TlbRun} {virt : Word} {t : Paging}
    (hinv : PagingInvariant pool s.paging) (hs : Coherent pool s)
    (h : pagingUnmapPage pool virt s.paging = some t) :
    Coherent pool ⟨t, if (s.paging.directory (pageDirIndex virt)).present = false then s.tlb
      else invlpg virt s.tlb⟩ := by
  have hwalk := pageWalk_unmap hinv h
  have hother : ∀ n e, n ≠ pageNumber virt → (n, e) ∈ s.tlb → pageWalk pool t n = some e := by
    intro n e hn he
    rw [hwalk, Function.update_of_ne hn]
    exact hs n e he
  intro n e he
  dsimp only at he
  split at he
  · next hp =>
    refine hother n e ?_ he
    rintro rfl
    rw [present_of_pageWalk (hs _ e he)] at hp
    cases hp
  · obtain ⟨he, hn⟩ := List.mem_filter.mp he
    exact hother n e (by simpa using hn) he

theorem tlbStep_coherent_iff {s t : TlbRun} {op : TlbOp} (hinv : PagingInvariant pool s.paging)
    (hs : Coherent pool s) (hst : TlbStep pool s op t) :
    Coherent pool t ↔ RemapsNothingCached s op := by
  cases hst with
  | map h => exact coherent_map_iff hinv hs h
  | unmap h => exact iff_of_true (coherent_unmap hinv hs h) trivial
  | access h =>
    refine iff_of_true (fun n e he => ?_) trivial
    cases List.mem_cons.mp he with
    | inl heq =>
      cases heq
      exact h
    | inr he =>
      exact hs n e he

theorem tlbStep_paging {s t : TlbRun} {op : TlbOp} (hinv : PagingInvariant pool s.paging)
    (hst : TlbStep pool s op t) : PagingInvariant pool t.paging := by
  cases hst with
  | @map virt phys flags t h => exact pagingStep_invariant (.map virt phys flags) hinv h
  | @unmap virt t h => exact pagingStep_invariant (.unmap virt) hinv h
  | access h => exact hinv

theorem guarded_tlb {s : TlbRun} (h : ((tlbSystem pool).guarded RemapsNothingCached).Reachable s) :
    PagingInvariant pool s.paging ∧ Coherent pool s := by
  refine h.invariant (P := fun s => PagingInvariant pool s.paging ∧ Coherent pool s) ?_ ?_
  · rintro s ⟨hinit, htlb⟩
    refine ⟨(pagingInit_identityMapped hinit).inv, fun n e he => ?_⟩
    rw [htlb] at he
    exact absurd he List.not_mem_nil
  · rintro s op t _ ⟨hinv, hs⟩ ⟨hst, hop⟩
    exact ⟨tlbStep_paging hinv hst, (tlbStep_coherent_iff hinv hs hst).mpr hop⟩

/-- In a run that remaps cached pages only to what they are already, the TLB is
coherent after every call and access, and the next step keeps it so exactly
when it meets the same condition. -/
theorem tlb_coherent_iff {s : TlbRun}
    (h : ((tlbSystem pool).guarded RemapsNothingCached).Reachable s) :
    Coherent pool s ∧
      ∀ op t, TlbStep pool s op t → (Coherent pool t ↔ RemapsNothingCached s op) := by
  obtain ⟨hinv, hs⟩ := guarded_tlb h
  exact ⟨hs, fun op t hst => tlbStep_coherent_iff hinv hs hst⟩

/-- After `paging_init` the page at 0x500000 is mapped to itself. -/
theorem walk_fiveMB :
    ∃ s, (pagingSystem poolAt2M).init s ∧ IdentityMapped poolAt2M 4096 s ∧
      pageWalk poolAt2M s (pageNumber 0x500000#32) = some ⟨0x500#20, true, false⟩ := by
  obtain ⟨s, hs, hid⟩ := exists_pagingInit poolAt2M
  have hp : (s.directory (dirPart (pageNumber 0x500000#32))).present = true :=
    (hid.dirs _).mpr (by decide)
  refine ⟨s, hs, hid, ?_⟩
  rw [pageWalk, hid.map, hid.inv.writable _ hp, hid.kernel _ hp]
  decide

/-- An access to 0x500000, and then a call that maps another page. -/
theorem tlb_coherent_mapped : ∃ s t,
    TlbStep poolAt2M s (.map 0x600000#32 0x800000#32 (PAGE_PRESENT ||| PAGE_WRITE)) t ∧
      t.tlb = [(pageNumber 0x500000#32, ⟨0x500#20, true, false⟩)] ∧ Coherent poolAt2M t := by
  obtain ⟨s, hs, hid, hwalk⟩ := walk_fiveMB
  obtain ⟨t, ht, _⟩ := pagingMapPage_spec hid.inv 0x600000#32 0x800000#32
    (PAGE_PRESENT ||| PAGE_WRITE)
  have hinit : ((tlbSystem poolAt2M).guarded RemapsNothingCached).Reachable ⟨s, []⟩ :=
    .init ⟨hs, rfl⟩
  have haccess : TlbStep poolAt2M ⟨s, []⟩ (.access 0x500000#32)
      ⟨s, [(pageNumber 0x500000#32, ⟨0x500#20, true, false⟩)]⟩ := .access hwalk
  have hrun : ((tlbSystem poolAt2M).guarded RemapsNothingCached).Reachable
      ⟨s, [(pageNumber 0x500000#32, ⟨0x500#20, true, false⟩)]⟩ :=
    hinit.step (a := .access 0x500000#32) ⟨haccess, trivial⟩
  have hother : RemapsNothingCached ⟨s, [(pageNumber 0x500000#32, ⟨0x500#20, true, false⟩)]⟩
      (.map 0x600000#32 0x800000#32 (PAGE_PRESENT ||| PAGE_WRITE)) := by
    intro e he
    have hpage : pageNumber 0x600000#32 = pageNumber 0x500000#32 :=
      congrArg Prod.fst (List.mem_singleton.mp he)
    exact absurd hpage (by decide)
  exact ⟨_, _, .map ht, rfl, ((tlb_coherent_iff hrun).2 _ _ (.map ht)).mpr hother⟩

/-- An access to 0x500000, and then `paging_map_page(0x500000, 0x800000, PRESENT | WRITE)`:
the cached translation still leads to frame 0x500. -/
theorem remap_leaves_stale : ∃ s t, (tlbSystem poolAt2M).Reachable s ∧
    TlbStep poolAt2M s (.map 0x500000#32 0x800000#32 (PAGE_PRESENT ||| PAGE_WRITE)) t ∧
    ¬ Coherent poolAt2M t := by
  obtain ⟨s, hs, hid, hwalk⟩ := walk_fiveMB
  obtain ⟨t, ht, _⟩ := pagingMapPage_spec hid.inv 0x500000#32 0x800000#32
    (PAGE_PRESENT ||| PAGE_WRITE)
  have hinit : (tlbSystem poolAt2M).Reachable ⟨s, []⟩ := .init ⟨hs, rfl⟩
  have hrun : (tlbSystem poolAt2M).Reachable
      ⟨s, [(pageNumber 0x500000#32, ⟨0x500#20, true, false⟩)]⟩ :=
    hinit.step (a := .access 0x500000#32) (TlbStep.access hwalk)
  have hcached : Coherent poolAt2M ⟨s, [(pageNumber 0x500000#32, ⟨0x500#20, true, false⟩)]⟩ := by
    intro n e he
    cases List.mem_singleton.mp he
    exact hwalk
  refine ⟨_, _, hrun, .map ht, fun hcoh => ?_⟩
  have hsame := (coherent_map_iff hid.inv hcached ht).mp hcoh _ (List.mem_singleton_self _)
  have hframe : 0x500#20 = frameOf 0x800000#32 := congrArg Mapping.frame hsame.2
  exact absurd hframe (by decide)

end Zenix
