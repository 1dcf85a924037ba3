import Zenix.Mm.PagingRefinement

/-!
# What the MMU makes of the tables

A page walk grants a right when the directory entry and the table entry both
grant it. `paging_map_page` writes the user bit of a directory entry when it
creates it and never again.

Results:
1. `pageWalk_map`, `pageWalk_unmap`: what the calls do to the translations.
2. `effective_rights_iff`: in a run that asks for user pages only where the
   directory entry allows them, every page has the rights it was mapped with;
   a call that asks elsewhere breaks this.
3. `user_page_in_kernel_region`: mapping a user page in the identity-mapped
   region does.
-/

namespace Zenix
open ByteMemory

/-! ## The walk -/

section Walk
variable (pool : TablePool)

/-- The translation of a page: its frame, and the rights that both levels grant. -/
def pageWalk (s : Paging) (n : BitVec 20) : Option Mapping :=
  (pageMap pool s n).map fun e =>
    ⟨e.frame, (s.directory (dirPart n)).rw && e.rw, (s.directory (dirPart n)).user && e.user⟩

/-- The translation that a call of `paging_map_page` puts in place. -/
def granted (s : Paging) (virt phys flags : Word) : Option Mapping :=
  let dir := s.directory (pageDirIndex virt)
  if hasFlag flags PAGE_PRESENT then
    some ⟨frameOf phys, hasFlag flags PAGE_WRITE, (!dir.present || dir.user) && hasFlag flags PAGE_USER⟩
  else none

end Walk

variable {pool : TablePool}

theorem pageWalk_congr {s t : Paging} {n : BitVec 20} (hmap : pageMap pool t n = pageMap pool s n)
    (hdir : t.directory (dirPart n) = s.directory (dirPart n)) :
    pageWalk pool t n = pageWalk pool s n := by
  rw [pageWalk, pageWalk, hmap, hdir]

/-- A page in an absent directory slot has no translation. -/
theorem pageMap_none {s : Paging} {n : BitVec 20} (h : (s.directory (dirPart n)).present = false) :
    pageMap pool s n = none :=
  TwoLevel.lookup_of_none (levels_dir_none pool h) _

theorem pageWalk_none {s : Paging} {n : BitVec 20} (h : pageMap pool s n = none) :
    pageWalk pool s n = none := by
  rw [pageWalk, h, Option.map_none]

/-- The walk of a page that was just mapped. -/
theorem pageWalk_requested {s t : Paging} {virt phys flags : Word}
    (hmap : pageMap pool t (pageNumber virt) = requested phys flags)
    (hrw : (t.directory (pageDirIndex virt)).rw = true)
    (huser : ((t.directory (pageDirIndex virt)).user && hasFlag flags PAGE_USER) =
      ((!(s.directory (pageDirIndex virt)).present || (s.directory (pageDirIndex virt)).user) &&
        hasFlag flags PAGE_USER)) :
    pageWalk pool t (pageNumber virt) = granted s virt phys flags := by
  rw [pageWalk, hmap, ← pageDirIndex_eq, hrw, requested, granted]
  cases hasFlag flags PAGE_PRESENT with
  | false => rfl
  | true =>
    simp only [if_true, Option.map_some, Bool.true_and]
    rw [huser]

/-- A call of `paging_map_page` changes one translation. Whether that page is a
user page depends on the directory entry as well as on the flags. -/
theorem pageWalk_map {s t : Paging} {virt phys flags : Word} (hs : PagingInvariant pool s)
    (h : pagingMapPage pool virt phys flags s = some t) :
    pageWalk pool t =
      if Exhausted s virt then pageWalk pool s
      else Function.update (pageWalk pool s) (pageNumber virt) (granted s virt phys flags) := by
  obtain ⟨u, hu, _, hmap⟩ := pagingMapPage_spec hs virt phys flags
  obtain rfl : u = t := Option.some.inj (hu.symm.trans h)
  have hself : ¬ Exhausted s virt →
      pageMap pool u (pageNumber virt) = requested phys flags := by
    intro hex
    rw [hmap, if_neg hex, Function.update_self]
  have hother : ∀ n, ¬ Exhausted s virt → n ≠ pageNumber virt →
      pageMap pool u n = pageMap pool s n := by
    intro n hex hn
    rw [hmap, if_neg hex, Function.update_of_ne hn]
  rcases pagingMapPage_directory h with ⟨hdir, _, hp⟩ | ⟨hp, hroom, _, k, hdir⟩
  · split
    · next hex =>
      rw [if_pos hex] at hmap
      exact funext fun n => pageWalk_congr (congrFun hmap n) (congrFun hdir _)
    · next hex =>
      -- the directory entry was there, as the invariant has it
      have hp : (s.directory (pageDirIndex virt)).present = true := by
        cases hpres : (s.directory (pageDirIndex virt)).present with
        | true => rfl
        | false => exact absurd ⟨hpres, hp.resolve_left (by rw [hpres]; decide)⟩ hex
      funext n
      rw [Function.update_apply]
      split
      · next hn =>
        rw [hn]
        refine pageWalk_requested (hself hex) ?_ ?_
        · rw [hdir, hs.writable _ hp]
        · rw [hdir, hp, Bool.not_true, Bool.false_or]
      · next hn => exact pageWalk_congr (hother n hex hn) (congrFun hdir _)
  · have hex : ¬ Exhausted s virt := fun hex => absurd hex.2 (by omega)
    rw [if_neg hex]
    funext n
    rw [Function.update_apply]
    split
    · next hn =>
      rw [hn]
      refine pageWalk_requested (hself hex) ?_ ?_
      · rw [hdir]
        simp only [newDirEntry, if_true]
      · rw [hdir, hp]
        simp only [newDirEntry, if_true, Bool.and_self, Bool.not_false, Bool.true_or, Bool.true_and]
    · next hn =>
      cases Decidable.em (dirPart n = pageDirIndex virt) with
      | inl hd =>
        -- no other page of the new region is mapped
        have hnone : pageMap pool s n = none := pageMap_none (hd ▸ hp)
        rw [pageWalk_none hnone, pageWalk_none ((hother n hex hn).trans hnone)]
      | inr hd =>
        refine pageWalk_congr (hother n hex hn) ?_
        rw [hdir]
        exact if_neg hd

theorem pageWalk_unmap {s t : Paging} {virt : Word} (hs : PagingInvariant pool s)
    (h : pagingUnmapPage pool virt s = some t) :
    pageWalk pool t = Function.update (pageWalk pool s) (pageNumber virt) none := by
  obtain ⟨u, hu, _, hdir, hmap⟩ := pagingUnmapPage_spec hs virt
  obtain rfl : u = t := Option.some.inj (hu.symm.trans h)
  funext n
  rw [Function.update_apply]
  split
  · next hn => exact pageWalk_none (by rw [hmap, hn, Function.update_self])
  · next hn =>
    exact pageWalk_congr (by rw [hmap, Function.update_of_ne hn]) (congrFun hdir _)

/-! ## Rights over whole runs -/

structure Rights where
  rw : Bool
  user : Bool
deriving DecidableEq, Repr

def Mapping.rights (e : Mapping) : Rights := ⟨e.rw, e.user⟩

/-- The right that x86 grants on a page: the AND of both levels. -/
def effectiveRights (pool : TablePool) (s : Paging) (n : BitVec 20) : Option Rights :=
  (pageWalk pool s n).map Mapping.rights

/-- The rights that a call of `paging_map_page` asks for. -/
def askedRights (flags : Word) : Option Rights :=
  if hasFlag flags PAGE_PRESENT then some ⟨hasFlag flags PAGE_WRITE, hasFlag flags PAGE_USER⟩
  else none

/-- The page tables, and the rights that each page was last mapped with. -/
structure RightsRun where
  paging : Paging
  asked : BitVec 20 → Option Rights

inductive RightsStep (pool : TablePool) : RightsRun → PagingOp → RightsRun → Prop
  | map {s : RightsRun} {virt phys flags : Word} {t : Paging} :
      pagingMapPage pool virt phys flags s.paging = some t →
      RightsStep pool s (.map virt phys flags)
        ⟨t, if Exhausted s.paging virt then s.asked
          else Function.update s.asked (pageNumber virt) (askedRights flags)⟩
  | unmap {s : RightsRun} {virt : Word} {t : Paging} :
      pagingUnmapPage pool virt s.paging = some t →
      RightsStep pool s (.unmap virt) ⟨t, Function.update s.asked (pageNumber virt) none⟩

/-- Runs from `paging_init`, which maps the first 16 MB writable and for the
kernel. -/
def rightsSystem (pool : TablePool) : TransitionSystem RightsRun PagingOp where
  init := fun s => (pagingSystem pool).init s.paging ∧
    s.asked = fun n => if n.toNat < 4096 then some ⟨true, false⟩ else none
  step := RightsStep pool

/-- A user page is asked for only where the directory slot is absent or has its
user bit set. -/
def UserAllowed (s : RightsRun) : PagingOp → Prop
  | .map virt _ flags =>
      hasFlag flags PAGE_PRESENT = true → hasFlag flags PAGE_USER = true →
        (s.paging.directory (pageDirIndex virt)).present = true →
        (s.paging.directory (pageDirIndex virt)).user = true
  | .unmap _ => True

theorem granted_rights {s : RightsRun} {virt phys flags : Word} :
    (granted s.paging virt phys flags).map Mapping.rights = askedRights flags ↔
      UserAllowed s (.map virt phys flags) := by
  rw [granted, askedRights, UserAllowed]
  cases hasFlag flags PAGE_PRESENT <;> cases hasFlag flags PAGE_USER <;>
    cases (s.paging.directory (pageDirIndex virt)).present <;>
    cases (s.paging.directory (pageDirIndex virt)).user <;>
    simp [Mapping.rights]

theorem effectiveRights_map {s t : Paging} {virt phys flags : Word} (hs : PagingInvariant pool s)
    (h : pagingMapPage pool virt phys flags s = some t) (n : BitVec 20) :
    effectiveRights pool t n =
      if Exhausted s virt then effectiveRights pool s n
      else if n = pageNumber virt then (granted s virt phys flags).map Mapping.rights
      else effectiveRights pool s n := by
  rw [effectiveRights, effectiveRights, pageWalk_map hs h]
  split
  · rfl
  · rw [Function.update_apply]
    split <;> rfl

/-- The tables meet the invariant and every page has the rights asked for. -/
structure RightsInvariant (pool : TablePool) (s : RightsRun) : Prop where
  paging : PagingInvariant pool s.paging
  effective : ∀ n, effectiveRights pool s.paging n = s.asked n

theorem rightsStep_invariant {s t : RightsRun} {op : PagingOp} (hs : RightsInvariant pool s)
    (hst : RightsStep pool s op t) (hop : UserAllowed s op) : RightsInvariant pool t := by
  cases hst with
  | @map virt phys flags t h =>
    refine ⟨pagingStep_invariant (.map virt phys flags) hs.paging h, fun n => ?_⟩
    rw [effectiveRights_map hs.paging h, granted_rights.mpr hop, hs.effective]
    dsimp only
    split
    · rfl
    · rw [Function.update_apply]
  | @unmap virt t h =>
    refine ⟨pagingStep_invariant (.unmap virt) hs.paging h, fun n => ?_⟩
    dsimp only
    rw [effectiveRights, pageWalk_unmap hs.paging h, Function.update_apply, Function.update_apply]
    split
    · rfl
    · exact hs.effective n

theorem rightsInit_invariant {s : RightsRun} (h : (rightsSystem pool).init s) :
    RightsInvariant pool s := by
  obtain ⟨hinit, hasked⟩ := h
  have hid := pagingInit_identityMapped hinit
  refine ⟨hid.inv, fun n => ?_⟩
  rw [hasked, effectiveRights, pageWalk, hid.map]
  dsimp only
  cases Decidable.em (n.toNat < 4096) with
  | inl hn =>
    have hp : (s.paging.directory (dirPart n)).present = true := by
      rw [hid.dirs]
      simp only [dirPart, BitVec.toNat_setWidth, BitVec.toNat_ushiftRight,
        Nat.shiftRight_eq_div_pow]
      omega
    rw [if_pos hn, if_pos hn, Option.map_some, Option.map_some, hid.inv.writable _ hp,
      hid.kernel _ hp]
    rfl
  | inr hn =>
    rw [if_neg hn, if_neg hn]
    rfl

theorem guarded_rights {s : RightsRun} (h : ((rightsSystem pool).guarded UserAllowed).Reachable s) :
    RightsInvariant pool s :=
  h.invariant (P := RightsInvariant pool) (fun _ hs => rightsInit_invariant hs)
    (fun _ _ _ _ hs hst => rightsStep_invariant hs hst.1 hst.2)

/-- In a run that asks for user pages only where the directory allows them, every
page has the rights it was last mapped with. The next call of `paging_map_page`
keeps it so exactly when it meets the same condition. -/
theorem effective_rights_iff {s : RightsRun}
    (h : ((rightsSystem pool).guarded UserAllowed).Reachable s) :
    (∀ n, effectiveRights pool s.paging n = s.asked n) ∧
    ∀ virt phys flags t, hasFlag flags PAGE_PRESENT = true → ¬ Exhausted s.paging virt →
      pagingMapPage pool virt phys flags s.paging = some t →
      ((effectiveRights pool t (pageNumber virt) =
            some ⟨hasFlag flags PAGE_WRITE, hasFlag flags PAGE_USER⟩ ∧
          ∀ n, n ≠ pageNumber virt → effectiveRights pool t n = s.asked n) ↔
        UserAllowed s (.map virt phys flags)) := by
  have hs := guarded_rights h
  refine ⟨hs.effective, ?_⟩
  intro virt phys flags t hpresent hroom hcall
  have hasked : some ⟨hasFlag flags PAGE_WRITE, hasFlag flags PAGE_USER⟩ = askedRights flags := by
    rw [askedRights, if_pos hpresent]
  rw [hasked, ← granted_rights, effectiveRights_map hs.paging hcall, if_neg hroom, if_pos rfl]
  refine and_iff_left fun n hn => ?_
  rw [effectiveRights_map hs.paging hcall, if_neg hroom, if_neg hn, hs.effective]

/-! ## A user page in the identity-mapped region -/

/-- A page at 16 MB is the first of its region and gets the rights asked for. -/
theorem effective_rights_user : ∃ s t, (pagingSystem poolAt2M).init s ∧
    pagingMapPage poolAt2M 0x1000000#32 0x800000#32 7#32 s = some t ∧
    effectiveRights poolAt2M t (pageNumber 0x1000000#32) = some ⟨true, true⟩ := by
  obtain ⟨s, hs, hid⟩ := exists_pagingInit poolAt2M
  obtain ⟨t, ht, _⟩ := pagingMapPage_spec hid.inv 0x1000000#32 0x800000#32 7#32
  have hrun : ((rightsSystem poolAt2M).guarded UserAllowed).Reachable
      ⟨s, fun n => if n.toNat < 4096 then some ⟨true, false⟩ else none⟩ := .init ⟨hs, rfl⟩
  have hok : UserAllowed ⟨s, fun n => if n.toNat < 4096 then some ⟨true, false⟩ else none⟩
      (.map 0x1000000#32 0x800000#32 7#32) := by
    intro _ _ hp
    exact absurd ((hid.dirs _).mp hp) (by decide)
  have hcall := (effective_rights_iff hrun).2 0x1000000#32 0x800000#32 7#32 t (by decide)
    (hid.room (by decide) _) ht
  exact ⟨s, t, hs, ht, (hcall.mpr hok).1⟩

/-- `paging_map_page(0x500000, 0x800000, PRESENT | WRITE | USER)` right after
`paging_init` leaves a page that user code cannot reach. -/
theorem user_page_in_kernel_region : ∃ s t, (pagingSystem poolAt2M).Reachable s ∧
    ¬ Exhausted s 0x500000#32 ∧
    pagingMapPage poolAt2M 0x500000#32 0x800000#32 (PAGE_PRESENT ||| PAGE_WRITE ||| PAGE_USER) s =
      some t ∧
    effectiveRights poolAt2M t (pageNumber 0x500000#32) ≠ some ⟨true, true⟩ := by
  obtain ⟨s, hs, hid⟩ := exists_pagingInit poolAt2M
  obtain ⟨t, ht, _⟩ := pagingMapPage_spec hid.inv 0x500000#32 0x800000#32
    (PAGE_PRESENT ||| PAGE_WRITE ||| PAGE_USER)
  refine ⟨s, t, .init hs, hid.room (by decide) _, ht, ?_⟩
  have hp : (s.directory (pageDirIndex 0x500000#32)).present = true := (hid.dirs _).mpr (by decide)
  rw [effectiveRights_map hid.inv ht, if_neg (hid.room (by decide) _), if_pos rfl, granted, hp,
    hid.kernel _ hp]
  decide

end Zenix
