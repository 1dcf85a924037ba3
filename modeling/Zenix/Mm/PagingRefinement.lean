import Mathlib.Logic.Function.Basic
import Zenix.Lib.Transition
import Zenix.Lib.TwoLevel
import Zenix.Mm.Paging

/-!
# The page tables as one flat map

`pageMap` reads the directory and the tables of the pool as a map from virtual
page numbers to a frame and its two permission bits. The file shows that the
functions of paging.c are operations on that map.

Results:
1. `pagingInit_spec`: `paging_init` maps the first 16 MB to themselves.
2. `pagingMapPage_spec`, `pagingUnmapPage_spec`, `pagingGetPhysical_spec`: what
   the functions do to the map, in every state that meets the invariant.
3. `paging_refines`: the same in every state of every run, and no two directory
   slots share a table.
-/

namespace Zenix
open ByteMemory

/-! ## The flat map -/

/-- What a present page table entry says about its page. -/
structure Mapping where
  frame : BitVec 20
  rw : Bool
  user : Bool
deriving DecidableEq, Repr

def PageTableEntry.mapping (e : PageTableEntry) : Option Mapping :=
  if e.present then some ⟨e.frame, e.rw, e.user⟩ else none

/-- What `paging_map_page` is asked to put in place. -/
def requested (phys flags : Word) : Option Mapping :=
  if hasFlag flags PAGE_PRESENT then
    some ⟨frameOf phys, hasFlag flags PAGE_WRITE, hasFlag flags PAGE_USER⟩
  else none

/-- `addr >> 12`. -/
def pageNumber (addr : Word) : BitVec 20 := (addr >>> 12).setWidth 20

/-- The two indices in a page number. -/
def dirPart (n : BitVec 20) : BitVec 10 := (n >>> 10).setWidth 10
def tablePart (n : BitVec 20) : BitVec 10 := n.setWidth 10

variable (pool : TablePool)

/-- Directory and tables, without what the hardware ignores. -/
def levels (s : Paging) : TwoLevel (BitVec 10) (Fin 256) (BitVec 10) Mapping where
  dir := fun i => if (s.directory i).present then tableOf pool (s.directory i) else none
  tables := fun k i => (s.pageTables k i).mapping

def pageMap (s : Paging) (n : BitVec 20) : Option Mapping :=
  (levels pool s).lookup (dirPart n) (tablePart n)

/-- The call needs a table and the pool has none left. -/
def Exhausted (s : Paging) (virt : Word) : Prop :=
  (s.directory (pageDirIndex virt)).present = false ∧ 256 ≤ s.nextTableIndex

instance (s : Paging) (virt : Word) : Decidable (Exhausted s virt) :=
  inferInstanceAs (Decidable (_ ∧ _))

/-- Present directory entries are writable and name tables that the pool has
handed out, each its own. -/
structure PagingInvariant (s : Paging) : Prop where
  resolved : ∀ i, (s.directory i).present = true →
    ∃ k, tableOf pool (s.directory i) = some k ∧ k.val < s.nextTableIndex
  writable : ∀ i, (s.directory i).present = true → (s.directory i).rw = true
  unshared : (levels pool s).Unshared
  bounded : s.nextTableIndex ≤ 256

/-! ## Addresses and indices -/

theorem pageDirIndex_eq (virt : Word) : pageDirIndex virt = dirPart (pageNumber virt) := by
  apply BitVec.eq_of_toNat_eq
  simp only [pageDirIndex, dirPart, pageNumber, BitVec.toNat_setWidth, BitVec.toNat_ushiftRight,
    Nat.shiftRight_eq_div_pow]
  omega

theorem pageTableIndex_eq (virt : Word) : pageTableIndex virt = tablePart (pageNumber virt) := by
  apply BitVec.eq_of_toNat_eq
  simp only [pageTableIndex, tablePart, pageNumber, BitVec.toNat_setWidth, BitVec.toNat_and,
    BitVec.toNat_ushiftRight, Nat.shiftRight_eq_div_pow]
  rw [show (0x3FF#32).toNat = 2 ^ 10 - 1 from rfl, Nat.and_two_pow_sub_one_eq_mod]
  omega

theorem page_eq_iff {m n : BitVec 20} :
    m = n ↔ dirPart m = dirPart n ∧ tablePart m = tablePart n := by
  constructor
  · rintro rfl
    exact ⟨rfl, rfl⟩
  · rintro ⟨hd, ht⟩
    have hd := congrArg BitVec.toNat hd
    have ht := congrArg BitVec.toNat ht
    simp only [dirPart, tablePart, BitVec.toNat_setWidth, BitVec.toNat_ushiftRight,
      Nat.shiftRight_eq_div_pow] at hd ht
    apply BitVec.eq_of_toNat_eq
    omega

theorem frameAddr_frameOf {addr : Word} (h : addr.toNat % 4096 = 0) :
    frameAddr (frameOf addr) = addr := by
  apply BitVec.eq_of_toNat_eq
  simp only [frameAddr, frameOf, BitVec.toNat_shiftLeft, BitVec.toNat_setWidth,
    BitVec.toNat_ushiftRight, Nat.shiftRight_eq_div_pow, Nat.shiftLeft_eq]
  omega

theorem pageNumber_toNat (b : Word) : (pageNumber b).toNat = b.toNat / 2 ^ 12 := by
  have hb := b.isLt
  unfold pageNumber
  rw [BitVec.toNat_setWidth, BitVec.toNat_ushiftRight, Nat.shiftRight_eq_div_pow]
  omega

/-- The frame and the offset make up the address again. -/
theorem frameAddr_or_offset (b : Word) :
    frameAddr (pageNumber b) ||| (b &&& 0xFFF#32) = b := by
  have hframe : (frameAddr (pageNumber b)).toNat = 2 ^ 12 * (b.toNat / 2 ^ 12) := by
    have hb := b.isLt
    unfold frameAddr
    rw [BitVec.toNat_shiftLeft, BitVec.toNat_setWidth, pageNumber_toNat, Nat.shiftLeft_eq]
    omega
  apply BitVec.eq_of_toNat_eq
  rw [BitVec.toNat_or, BitVec.toNat_and, hframe, show (0xFFF#32).toNat = 2 ^ 12 - 1 from rfl,
    Nat.and_two_pow_sub_one_eq_mod, ← Nat.two_pow_add_eq_or_of_lt (Nat.mod_lt _ (by decide)),
    Nat.div_add_mod]

theorem TablePool.tableAddr_toNat (k : Fin 256) :
    (pool.tableAddr k).toNat = pool.base + 4096 * k.val := by
  have hfits := pool.fits
  exact toNat_ofNat_of_lt (by omega)

theorem TablePool.tableAt_tableAddr (k : Fin 256) :
    pool.tableAt (pool.tableAddr k) = some k := by
  have hk := k.isLt
  simp only [TablePool.tableAt, TablePool.tableAddr_toNat, Nat.add_sub_cancel_left]
  rw [dif_pos ⟨by omega, by omega, by omega⟩]
  exact congrArg some (Fin.ext (Nat.mul_div_cancel_left k.val (by decide)))

/-- The directory entry that `paging_map_page` makes names the new table. -/
theorem tableOf_newDirEntry (e : PageDirEntry) (k : Fin 256) (flags : Word) :
    tableOf pool (newDirEntry pool e k flags) = some k := by
  have haligned : (pool.tableAddr k).toNat % 4096 = 0 := by
    have hdvd := pool.aligned
    rw [TablePool.tableAddr_toNat]
    omega
  rw [tableOf, newDirEntry, frameAddr_frameOf haligned, TablePool.tableAt_tableAddr]

/-! ## The building blocks on the two levels -/

theorem levels_setTableEntry (s : Paging) (k : Fin 256) (i : BitVec 10) (e : PageTableEntry) :
    levels pool (s.setTableEntry k i e) = (levels pool s).setEntry k i e.mapping := by
  simp only [levels, Paging.setTableEntry, TwoLevel.setEntry, TwoLevel.mk.injEq]
  refine ⟨rfl, ?_⟩
  funext q l
  split <;> rfl

theorem levels_setDirEntry (s : Paging) (i : BitVec 10) {e : PageDirEntry} {k : Fin 256}
    (he : e.present = true) (hk : tableOf pool e = some k) :
    levels pool (s.setDirEntry i e) = (levels pool s).link i k := by
  simp only [levels, Paging.setDirEntry, TwoLevel.link, TwoLevel.mk.injEq, and_true]
  funext j
  split
  · exact hk
  · rfl

theorem mapping_newTableEntry (e : PageTableEntry) (phys flags : Word) :
    (newTableEntry e phys flags).mapping = requested phys flags := rfl

theorem levels_allocPageTable {s t : Paging} {k : Fin 256} (h : allocPageTable s = some (k, t)) :
    k.val = s.nextTableIndex ∧ t.nextTableIndex = s.nextTableIndex + 1 ∧
      t.directory = s.directory ∧ levels pool t = (levels pool s).clearTable k := by
  unfold allocPageTable at h
  split at h
  · cases h
    refine ⟨rfl, rfl, rfl, ?_⟩
    simp only [levels, TwoLevel.clearTable, TwoLevel.mk.injEq, true_and]
    funext q l
    split <;> rfl
  · cases h

theorem allocPageTable_none {s : Paging} : allocPageTable s = none ↔ 256 ≤ s.nextTableIndex := by
  unfold allocPageTable
  split
  · next h => simp only [reduceCtorEq, false_iff]; omega
  · next h => simp only [true_iff]; omega

theorem levels_dir_none {s : Paging} {i : BitVec 10} (h : (s.directory i).present = false) :
    (levels pool s).dir i = none := by
  simp only [levels, h, Bool.false_eq_true, if_false]

theorem levels_dir_some {s : Paging} {i : BitVec 10} {k : Fin 256}
    (h : (s.directory i).present = true) (hk : tableOf pool (s.directory i) = some k) :
    (levels pool s).dir i = some k := by
  simp only [levels, h, if_true, hk]

/-! ## What the functions do -/

variable {pool}

theorem pageMap_setTableEntry {s : Paging} (hu : (levels pool s).Unshared) {virt : Word}
    {k : Fin 256} (hk : (levels pool s).dir (pageDirIndex virt) = some k) (e : PageTableEntry) :
    pageMap pool (s.setTableEntry k (pageTableIndex virt) e) =
      Function.update (pageMap pool s) (pageNumber virt) e.mapping := by
  funext n
  rw [pageMap, levels_setTableEntry, TwoLevel.lookup_setEntry hu hk, Function.update_apply,
    pageDirIndex_eq, pageTableIndex_eq]
  simp only [← page_eq_iff]
  rfl

/-- Handing out a table and entering it in an absent slot keeps the invariant
and maps nothing. -/
theorem newTable_spec {s t : Paging} (hs : PagingInvariant pool s) {i : BitVec 10} {k : Fin 256}
    {e : PageDirEntry} (ha : (s.directory i).present = false)
    (halloc : allocPageTable s = some (k, t)) (he : e.present = true)
    (hrw : e.rw = true) (hk : tableOf pool e = some k) :
    PagingInvariant pool (t.setDirEntry i e) ∧
      (levels pool (t.setDirEntry i e)).dir i = some k ∧
      pageMap pool (t.setDirEntry i e) = pageMap pool s := by
  obtain ⟨hkn, hnext, hdir, hlev⟩ := levels_allocPageTable pool halloc
  have hlink := levels_setDirEntry pool t i he hk
  -- tables that are entered come before the new one
  have hfresh : ¬ (levels pool s).Entered k := by
    rintro ⟨j, hj⟩
    cases hp : (s.directory j).present with
    | false =>
      rw [levels_dir_none pool hp] at hj
      cases hj
    | true =>
      obtain ⟨q, hq, hlt⟩ := hs.resolved j hp
      rw [levels_dir_some pool hp hq] at hj
      cases hj
      omega
  refine ⟨⟨?_, ?_, ?_, ?_⟩, ?_, ?_⟩
  · intro j hj
    simp only [Paging.setDirEntry] at hj ⊢
    split at hj
    · next hji =>
      rw [if_pos hji]
      exact ⟨k, hk, by omega⟩
    · next hji =>
      rw [if_neg hji]
      rw [hdir] at hj ⊢
      obtain ⟨q, hq, hlt⟩ := hs.resolved j hj
      exact ⟨q, hq, by omega⟩
  · intro j hj
    simp only [Paging.setDirEntry] at hj ⊢
    split at hj
    · next hji => rw [if_pos hji, hrw]
    · next hji =>
      rw [if_neg hji]
      rw [hdir] at hj ⊢
      exact hs.writable j hj
  · rw [hlink, hlev]
    exact TwoLevel.unshared_link hs.unshared hfresh i
  · have hlt := k.isLt
    show t.nextTableIndex ≤ 256
    omega
  · rw [hlink]
    exact if_pos rfl
  · funext n
    rw [pageMap, hlink, hlev]
    have hblank : ∀ l, ((levels pool s).clearTable k).tables k l = none := fun l => if_pos rfl
    rw [TwoLevel.lookup_link (t := (levels pool s).clearTable k) (levels_dir_none pool ha) hblank,
      TwoLevel.lookup_clearTable hfresh]
    rfl

/-- Changing an entry of a table keeps the invariant. -/
theorem PagingInvariant.setTableEntry {s : Paging} (hs : PagingInvariant pool s) (k : Fin 256)
    (i : BitVec 10) (e : PageTableEntry) : PagingInvariant pool (s.setTableEntry k i e) :=
  ⟨hs.resolved, hs.writable, by rw [levels_setTableEntry]; exact hs.unshared, hs.bounded⟩

/-- `paging_map_page` returns. It gives up when it needs a table and there is
none, and otherwise puts in place what was asked for. -/
theorem pagingMapPage_spec {s : Paging} (hs : PagingInvariant pool s) (virt phys flags : Word) :
    ∃ t, pagingMapPage pool virt phys flags s = some t ∧ PagingInvariant pool t ∧
      pageMap pool t =
        if Exhausted s virt then pageMap pool s
        else Function.update (pageMap pool s) (pageNumber virt) (requested phys flags) := by
  simp only [pagingMapPage]
  cases hp : (s.directory (pageDirIndex virt)).present with
  | false =>
    rw [if_pos rfl]
    cases halloc : allocPageTable s with
    | none =>
      exact ⟨s, rfl, hs, (if_pos ⟨hp, allocPageTable_none.mp halloc⟩).symm⟩
    | some r =>
      obtain ⟨k, t⟩ := r
      have hex : ¬ Exhausted s virt := by
        intro hex
        rw [allocPageTable_none.mpr hex.2] at halloc
        cases halloc
      obtain ⟨ht, hdir, hmap⟩ :=
        newTable_spec hs hp halloc rfl rfl (tableOf_newDirEntry pool (t.directory _) k flags)
      refine ⟨_, rfl, ht.setTableEntry _ _ _, ?_⟩
      rw [if_neg hex, pageMap_setTableEntry ht.unshared hdir, hmap, mapping_newTableEntry]
  | true =>
    obtain ⟨k, hk, _⟩ := hs.resolved _ hp
    have hex : ¬ Exhausted s virt := fun hex => Bool.false_ne_true (hex.1.symm.trans hp)
    rw [if_neg (by decide), hk]
    refine ⟨_, rfl, hs.setTableEntry _ _ _, ?_⟩
    rw [if_neg hex, pageMap_setTableEntry hs.unshared (levels_dir_some pool hp hk),
      mapping_newTableEntry]

/-- What `paging_map_page` does to the directory: it makes an entry when there is
none and a table is left. -/
theorem pagingMapPage_directory {s t : Paging} {virt phys flags : Word}
    (h : pagingMapPage pool virt phys flags s = some t) :
    (t.directory = s.directory ∧ t.nextTableIndex = s.nextTableIndex ∧
        ((s.directory (pageDirIndex virt)).present = true ∨ 256 ≤ s.nextTableIndex)) ∨
      ((s.directory (pageDirIndex virt)).present = false ∧ s.nextTableIndex < 256 ∧
        t.nextTableIndex = s.nextTableIndex + 1 ∧
        ∃ k, t.directory = fun j =>
          if j = pageDirIndex virt then
            newDirEntry pool (s.directory (pageDirIndex virt)) k flags
          else s.directory j) := by
  simp only [pagingMapPage] at h
  cases hp : (s.directory (pageDirIndex virt)).present with
  | false =>
    rw [hp, if_pos rfl] at h
    cases halloc : allocPageTable s with
    | none =>
      rw [halloc] at h
      cases h
      exact Or.inl ⟨rfl, rfl, Or.inr (allocPageTable_none.mp halloc)⟩
    | some r =>
      obtain ⟨k, u⟩ := r
      rw [halloc] at h
      cases h
      obtain ⟨hkn, hnext, hdir, _⟩ := levels_allocPageTable pool halloc
      have hk := k.isLt
      refine Or.inr ⟨rfl, by omega, hnext, k, ?_⟩
      simp only [Paging.setTableEntry, Paging.setDirEntry, hdir]
  | true =>
    rw [hp, if_neg (by decide)] at h
    obtain ⟨k, _, rfl⟩ := Option.map_eq_some_iff.mp h
    exact Or.inl ⟨rfl, rfl, Or.inl rfl⟩

theorem pageMap_absent {s : Paging} {virt : Word}
    (h : (s.directory (pageDirIndex virt)).present = false) :
    pageMap pool s (pageNumber virt) = none := by
  rw [pageMap, ← pageDirIndex_eq]
  exact TwoLevel.lookup_of_none (levels_dir_none pool h) _

theorem pageMap_present {s : Paging} {virt : Word} {k : Fin 256}
    (h : (s.directory (pageDirIndex virt)).present = true)
    (hk : tableOf pool (s.directory (pageDirIndex virt)) = some k) :
    pageMap pool s (pageNumber virt) = (s.pageTables k (pageTableIndex virt)).mapping := by
  rw [pageMap, ← pageDirIndex_eq, ← pageTableIndex_eq]
  exact TwoLevel.lookup_of_dir (levels_dir_some pool h hk) _

theorem pagingUnmapPage_spec {s : Paging} (hs : PagingInvariant pool s) (virt : Word) :
    ∃ t, pagingUnmapPage pool virt s = some t ∧ PagingInvariant pool t ∧
      t.directory = s.directory ∧
      pageMap pool t = Function.update (pageMap pool s) (pageNumber virt) none := by
  simp only [pagingUnmapPage]
  cases hp : (s.directory (pageDirIndex virt)).present with
  | false =>
    refine ⟨s, rfl, hs, rfl, ?_⟩
    rw [← pageMap_absent hp, Function.update_eq_self]
  | true =>
    obtain ⟨k, hk, _⟩ := hs.resolved _ hp
    rw [if_neg (by decide), hk]
    refine ⟨_, rfl, hs.setTableEntry _ _ _, rfl, ?_⟩
    rw [pageMap_setTableEntry hs.unshared (levels_dir_some pool hp hk)]
    rfl

/-- `paging_get_physical` reads the flat map. -/
theorem pagingGetPhysical_spec {s : Paging} (hs : PagingInvariant pool s) (virt : Word) :
    pagingGetPhysical pool virt s =
      some (match pageMap pool s (pageNumber virt) with
        | none => 0#32
        | some e => frameAddr e.frame ||| (virt &&& 0xFFF#32)) := by
  simp only [pagingGetPhysical]
  cases hp : (s.directory (pageDirIndex virt)).present with
  | false =>
    rw [pageMap_absent hp]
    rfl
  | true =>
    obtain ⟨k, hk, _⟩ := hs.resolved _ hp
    rw [pageMap_present hp hk, if_neg (by decide), hk, Option.map_some, PageTableEntry.mapping]
    cases (s.pageTables k (pageTableIndex virt)).present <;> rfl

/-! ## `paging_init` -/

/-- The state of the loop of `paging_init` when the first `k` pages are mapped. -/
structure IdentityMapped (pool : TablePool) (k : Nat) (s : Paging) : Prop where
  inv : PagingInvariant pool s
  map : ∀ n, pageMap pool s n = if n.toNat < k then some ⟨n, true, false⟩ else none
  dirs : ∀ d, (s.directory d).present = true ↔ 1024 * d.toNat < k
  kernel : ∀ d, (s.directory d).present = true → (s.directory d).user = false
  count : s.nextTableIndex = (k + 1023) / 1024

theorem identityMap_step {k : Nat} {s : Paging} (hk : k < 4096) (hs : IdentityMapped pool k s) :
    ∃ t, pagingMapPage pool (BitVec.ofNat 32 (4096 * k)) (BitVec.ofNat 32 (4096 * k))
        (PAGE_PRESENT ||| PAGE_WRITE) s = some t ∧ IdentityMapped pool (k + 1) t := by
  have hvirt : (BitVec.ofNat 32 (4096 * k)).toNat = 4096 * k := toNat_ofNat_of_lt (by omega)
  have hpage : (pageNumber (BitVec.ofNat 32 (4096 * k))).toNat = k := by
    simp only [pageNumber, BitVec.toNat_setWidth, BitVec.toNat_ushiftRight,
      Nat.shiftRight_eq_div_pow, hvirt]
    omega
  have hdirpart : (pageDirIndex (BitVec.ofNat 32 (4096 * k))).toNat = k / 1024 := by
    simp only [pageDirIndex, BitVec.toNat_setWidth, BitVec.toNat_ushiftRight,
      Nat.shiftRight_eq_div_pow, hvirt]
    omega
  have hcount := hs.count
  obtain ⟨t, ht, hinv, hmap⟩ := pagingMapPage_spec hs.inv (BitVec.ofNat 32 (4096 * k))
    (BitVec.ofNat 32 (4096 * k)) (PAGE_PRESENT ||| PAGE_WRITE)
  rw [if_neg (fun hex => by have := hex.2; omega)] at hmap
  have hmap' : ∀ n, pageMap pool t n = if n.toNat < k + 1 then some ⟨n, true, false⟩ else none := by
    intro n
    rw [hmap, Function.update_apply, hs.map]
    rcases Decidable.em (n = pageNumber (BitVec.ofNat 32 (4096 * k))) with rfl | hn
    · rw [if_pos rfl, if_pos (by omega)]
      rfl
    · have hne : n.toNat ≠ k := fun h => hn (BitVec.eq_of_toNat_eq (h.trans hpage.symm))
      rw [if_neg hn]
      exact if_congr (by omega) rfl rfl
  rcases pagingMapPage_directory ht with ⟨hdir, hnext, hp⟩ | ⟨hp, _, hnext, q, hdir⟩
  · -- the table of this page exists already
    have hp := (hs.dirs _).mp (hp.resolve_right (by omega))
    refine ⟨t, ht, hinv, hmap', ?_, ?_, by omega⟩
    · intro d
      rw [hdir, hs.dirs]
      omega
    · rw [hdir]
      exact hs.kernel
  · -- `k` is a multiple of 1024 and the page gets a new table
    have hk' := mt (hs.dirs (pageDirIndex (BitVec.ofNat 32 (4096 * k)))).mpr (by rw [hp]; decide)
    have hiff : ∀ d, d = pageDirIndex (BitVec.ofNat 32 (4096 * k)) ↔ d.toNat = k / 1024 := by
      intro d
      rw [← hdirpart]
      exact BitVec.toNat_inj.symm
    refine ⟨t, ht, hinv, hmap', ?_, ?_, by omega⟩
    · intro d
      rw [hdir]
      dsimp only
      split
      · next hd =>
        rw [hiff] at hd
        simp only [newDirEntry, true_iff]
        omega
      · next hd =>
        rw [hiff] at hd
        rw [hs.dirs]
        omega
    · intro d
      rw [hdir]
      dsimp only
      split
      · intro _
        rfl
      · exact hs.kernel d

theorem identityMap_spec {k : Nat} {s : Paging} (hk : k ≤ 4096) (hs : IdentityMapped pool k s) :
    ∃ t, identityMap pool (BitVec.ofNat 32 (4096 * k)) s = some t ∧ IdentityMapped pool 4096 t := by
  have hi : (BitVec.ofNat 32 (4096 * k)).toNat = 4096 * k := toNat_ofNat_of_lt (by omega)
  have hlt : BitVec.ofNat 32 (4096 * k) < 0x1000000#32 ↔ k < 4096 := by
    rw [BitVec.lt_def, hi]
    show 4096 * k < 16777216 ↔ k < 4096
    omega
  induction hn : 4096 - k generalizing k s with
  | zero =>
    obtain rfl : k = 4096 := by omega
    rw [identityMap, if_neg (mt hlt.mp (by omega))]
    exact ⟨s, rfl, hs⟩
  | succ n ih =>
    obtain ⟨t, ht, hst⟩ := identityMap_step (by omega) hs
    rw [identityMap, if_pos (hlt.mpr (by omega)), ht, Option.bind_some, PAGE_SIZE, ofNat_add_ofNat,
      show 4096 * k + 4096 = 4096 * (k + 1) by omega]
    have hi' : (BitVec.ofNat 32 (4096 * (k + 1))).toNat = 4096 * (k + 1) :=
      toNat_ofNat_of_lt (by omega)
    refine ih (by omega) hst hi' ?_ (by omega)
    rw [BitVec.lt_def, hi']
    show 4096 * (k + 1) < 16777216 ↔ k + 1 < 4096
    omega

/-- Given a page for the directory, `paging_init` maps the first 16 MB to
themselves, writable and for the kernel only. -/
theorem pagingInit_spec (pool : TablePool) (dir : PageDirectory) (tables : Fin 256 → PageTable) :
    ∃ s, pagingInit pool (some dir) tables = some (some s) ∧ IdentityMapped pool 4096 s := by
  have hstart : IdentityMapped pool 0 ⟨fun i => clearDirEntry (dir i), tables, 0⟩ := by
    refine ⟨⟨?_, ?_, ?_, Nat.zero_le 256⟩, ?_, ?_, ?_, rfl⟩
    · intro i hi
      cases hi
    · intro i hi
      cases hi
    · intro i j r hi
      cases hi
    · intro n
      rfl
    · intro d
      simp [clearDirEntry]
    · intro d hd
      rfl
  obtain ⟨s, hs, hid⟩ := identityMap_spec (by decide) hstart
  refine ⟨s, ?_, hid⟩
  unfold pagingInit
  exact congrArg (Option.map some) hs

/-! ## Runs -/

inductive PagingOp where
  | map (virt phys flags : Word)
  | unmap (virt : Word)

variable (pool)

def pagingStep (s : Paging) : PagingOp → Option Paging
  | .map virt phys flags => pagingMapPage pool virt phys flags s
  | .unmap virt => pagingUnmapPage pool virt s

/-- Runs from the state that `paging_init` leaves. -/
def pagingSystem : TransitionSystem Paging PagingOp where
  init := fun s => ∃ dir tables, pagingInit pool (some dir) tables = some (some s)
  step := fun s op t => pagingStep pool s op = some t

variable {pool}

theorem pagingInit_identityMapped {s : Paging} (h : (pagingSystem pool).init s) :
    IdentityMapped pool 4096 s := by
  obtain ⟨dir, tables, h⟩ := h
  obtain ⟨t, ht, hid⟩ := pagingInit_spec pool dir tables
  rw [ht] at h
  cases h
  exact hid

/-- A state after `paging_init`. -/
theorem exists_pagingInit (pool : TablePool) :
    ∃ s, (pagingSystem pool).init s ∧ IdentityMapped pool 4096 s := by
  obtain ⟨s, hs, hid⟩ := pagingInit_spec pool
    (fun _ => ⟨false, false, false, false, false, false, false, false, false, 0#3, 0#20⟩)
    (fun _ _ => ⟨false, false, false, false, false, false, false, false, false, 0#3, 0#20⟩)
  exact ⟨s, ⟨_, _, hs⟩, hid⟩

theorem IdentityMapped.room {k : Nat} {s : Paging} (hs : IdentityMapped pool k s) (hk : k ≤ 4096)
    (virt : Word) : ¬ Exhausted s virt := by
  intro hex
  have hcount := hs.count
  have hle := hex.2
  omega

theorem pagingStep_invariant {s t : Paging} (op : PagingOp) (hs : PagingInvariant pool s)
    (h : pagingStep pool s op = some t) : PagingInvariant pool t := by
  cases op with
  | map virt phys flags =>
    obtain ⟨u, hu, hinv, _⟩ := pagingMapPage_spec hs virt phys flags
    cases hu.symm.trans h
    exact hinv
  | unmap virt =>
    obtain ⟨u, hu, hinv, _⟩ := pagingUnmapPage_spec hs virt
    cases hu.symm.trans h
    exact hinv

theorem reachable_paging {s : Paging} (h : (pagingSystem pool).Reachable s) :
    PagingInvariant pool s :=
  h.invariant (P := PagingInvariant pool) (fun _ hs => (pagingInit_identityMapped hs).inv)
    (fun _ op _ _ hs hst => pagingStep_invariant op hs hst)

/-- In every state of every run the functions return and act on the flat map as
their names say, and each present directory slot has a table to itself. -/
theorem paging_refines {s : Paging} (h : (pagingSystem pool).Reachable s) :
    (∀ virt phys flags, ∃ t, pagingMapPage pool virt phys flags s = some t ∧
      pageMap pool t =
        if Exhausted s virt then pageMap pool s
        else Function.update (pageMap pool s) (pageNumber virt) (requested phys flags)) ∧
    (∀ virt, ∃ t, pagingUnmapPage pool virt s = some t ∧
      pageMap pool t = Function.update (pageMap pool s) (pageNumber virt) none) ∧
    (∀ virt, pagingGetPhysical pool virt s =
      some (match pageMap pool s (pageNumber virt) with
        | none => 0#32
        | some e => frameAddr e.frame ||| (virt &&& 0xFFF#32))) ∧
    ∀ i, (s.directory i).present = true → ∃ k, tableOf pool (s.directory i) = some k ∧
      ∀ j, (s.directory j).present = true → tableOf pool (s.directory j) = some k → j = i := by
  have hs := reachable_paging h
  refine ⟨?_, ?_, pagingGetPhysical_spec hs, ?_⟩
  · intro virt phys flags
    obtain ⟨t, ht, _, hmap⟩ := pagingMapPage_spec hs virt phys flags
    exact ⟨t, ht, hmap⟩
  · intro virt
    obtain ⟨t, ht, _, _, hmap⟩ := pagingUnmapPage_spec hs virt
    exact ⟨t, ht, hmap⟩
  · intro i hi
    obtain ⟨k, hk, _⟩ := hs.resolved i hi
    refine ⟨k, hk, fun j hj hjk => ?_⟩
    exact hs.unshared j i k (levels_dir_some pool hj hjk) (levels_dir_some pool hi hk)

/-- `page_tables` at 2 MB. -/
def poolAt2M : TablePool := ⟨0x200000, by decide, by decide⟩

/-- The dynamic mapping of `paging_test`, read back. -/
theorem paging_refines_test :
    ∃ s t, (pagingSystem poolAt2M).Reachable s ∧
      pagingMapPage poolAt2M 0x500000#32 0x800000#32 (PAGE_PRESENT ||| PAGE_WRITE) s = some t ∧
      pagingGetPhysical poolAt2M 0x500123#32 t = some 0x800123#32 := by
  obtain ⟨s, hs, hid⟩ := exists_pagingInit poolAt2M
  have hr : (pagingSystem poolAt2M).Reachable s := .init hs
  obtain ⟨t, ht, hmap⟩ :=
    (paging_refines hr).1 0x500000#32 0x800000#32 (PAGE_PRESENT ||| PAGE_WRITE)
  have hrt : (pagingSystem poolAt2M).Reachable t :=
    hr.step (a := .map 0x500000#32 0x800000#32 (PAGE_PRESENT ||| PAGE_WRITE)) ht
  refine ⟨s, t, hr, ht, ?_⟩
  rw [(paging_refines hrt).2.2.1, hmap, if_neg (hid.room (by decide) _),
    show pageNumber 0x500123#32 = pageNumber 0x500000#32 by decide, Function.update_self]
  decide

end Zenix
