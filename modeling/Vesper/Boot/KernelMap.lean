import Vesper.Mm.Sv39Map
import Vesper.Virtio.Queue

/-!
# The address space `kinit` builds

Model of `map_section` and of the eight calls `kinit` makes of it (`boot/entry.rs`), of
`id_map_range` (`mm/paging/sv39/map.rs`) and of the layouts `lds/virt.lds` admits.  Every
page is mapped at level 0, so a table is described by its view: the flags of each of the
`2 ^ 27` virtual pages.  A call of `id_map_range` paints the pages of its range; a page
keeps the flags it was painted with last.
-/

set_option autoImplicit false

namespace Vesper.Boot

open Vesper.Lib.PathTree
open Vesper.Mm.PageFrame (pageSize pageSize_eq pageSize_pos nextMultipleOf nextMultipleOf_mod)
open Vesper.Mm.Sv39
open Vesper.Virtio (mmioVirtioStart mmioVirtioEnd mmioVirtioStride)

/-! ## Model -/

def alignDown (addr align : Nat) : Nat :=
  (BitVec.ofNat 64 addr &&& ~~~(BitVec.ofNat 64 align - 1)).toNat

def alignUp (addr align : Nat) : Nat := nextMultipleOf addr align

inductive Panic where
  /-- `assert!(start.is_multiple_of(PAGE_SIZE))` -/
  | startUnaligned
  /-- `assert!(end.is_multiple_of(PAGE_SIZE))` -/
  | endUnaligned
  | map (panic : Mm.Sv39.Panic)
  deriving DecidableEq, Repr

def stepBy (start stop step : Nat) : List Nat :=
  (List.range ((stop - start + (step - 1)) / step)).map fun i => start + i * step

section Model
variable {σ : Type} (allocate : σ → Option (Nat × σ)) (root : Nat)

/-- The loop of `id_map_range`. -/
def idMapPages (bits : PteFlags) : List Nat → Mem → σ → Except Panic (Mem × σ)
  | [], m, s => .ok (m, s)
  | addr :: rest, m, s =>
      match map allocate root (BitVec.ofNat 64 addr) (BitVec.ofNat 64 addr) bits 0 m s with
      | .error panic => .error (.map panic)
      | .ok (m', s') => idMapPages bits rest m' s'

def idMapRange (start stop : Nat) (bits : PteFlags) (m : Mem) (s : σ) :
    Except Panic (Mem × σ) :=
  if start % pageSize ≠ 0 then .error .startUnaligned
  else if stop % pageSize ≠ 0 then .error .endUnaligned
  else idMapPages allocate root bits (stepBy start stop pageSize) m s

def mapSection (start stop : Nat) (flags : PteFlags) (m : Mem) (s : σ) :
    Except Panic (Mem × σ) :=
  idMapRange allocate root (alignDown start pageSize) (alignUp stop pageSize) flags m s

end Model

def uartBase : Nat := 0x10000000

def textStart : Nat := 0x80000000
def memoryEnd : Nat := 0x80000000 + 0x8000000

/-- The section symbols `virt.lds` leaves open.  `.rodata` and `.data` begin with
`ALIGN(4096)`, the sections follow each other and fit the memory region. -/
structure Layout where
  textEnd : Nat
  rodataStart : Nat
  rodataEnd : Nat
  dataStart : Nat
  dataEnd : Nat
  bssStart : Nat
  bssEnd : Nat
  text : textStart ≤ textEnd
  text_rodata : textEnd ≤ rodataStart
  rodata : rodataStart ≤ rodataEnd
  rodata_data : rodataEnd ≤ dataStart
  data : dataStart ≤ dataEnd
  data_bss : dataEnd ≤ bssStart
  bss : bssStart ≤ bssEnd
  rodataAligned : rodataStart % pageSize = 0
  dataAligned : dataStart % pageSize = 0
  inRam : bssEnd ≤ memoryEnd

namespace Layout

variable (l : Layout)

def stackStart : Nat := l.bssEnd
def stackEnd : Nat := l.stackStart + 0x80000
def heapStart : Nat := l.stackEnd

end Layout

def rx : PteFlags := PteFlags.READ ||| PteFlags.EXECUTE ||| PteFlags.ACCESSED
def ro : PteFlags := PteFlags.READ ||| PteFlags.ACCESSED
def rw : PteFlags := PteFlags.READ ||| PteFlags.WRITE ||| PteFlags.ACCESSED ||| PteFlags.DIRTY

structure Section where
  start : Nat
  stop : Nat
  flags : PteFlags
  deriving DecidableEq, Repr

def textSection (l : Layout) : Section := ⟨textStart, l.textEnd, rx⟩
def rodataSection (l : Layout) : Section := ⟨l.rodataStart, l.rodataEnd, ro⟩

def dataSections (l : Layout) : List Section :=
  [⟨l.dataStart, l.dataEnd, rw⟩,
   ⟨l.bssStart, l.bssEnd, rw⟩,
   ⟨l.stackStart, l.stackEnd, rw⟩,
   ⟨l.heapStart, memoryEnd, rw⟩,
   ⟨alignDown uartBase pageSize, alignDown uartBase pageSize + pageSize, rw⟩,
   ⟨mmioVirtioStart, mmioVirtioEnd + mmioVirtioStride, rw⟩]

/-- The calls of `kinit`, in order. -/
def sections (l : Layout) : List Section :=
  textSection l :: rodataSection l :: dataSections l

section Model
variable {σ : Type} (allocate : σ → Option (Nat × σ)) (root : Nat)

def mapSections : List Section → Mem → σ → Except Panic (Mem × σ)
  | [], m, s => .ok (m, s)
  | sec :: rest, m, s =>
      match mapSection allocate root sec.start sec.stop sec.flags m s with
      | .error panic => .error panic
      | .ok (m', s') => mapSections rest m' s'

/-- The part of `kinit` that fills the root table. -/
def kinitMap (l : Layout) (m : Mem) (s : σ) : Except Panic (Mem × σ) :=
  mapSections allocate root (sections l) m s

end Model

/-! ## Rounding and stepping -/

theorem alignDown_eq {addr : Nat} (small : addr < 2 ^ 64) :
    alignDown addr pageSize = addr / pageSize * pageSize := by
  have mask : ∀ j, (BitVec.ofNat 64 pageSize - 1).getLsbD j =
      (decide (j < 64) && decide (j < 12)) := fun j => Lib.Bits.getLsbD_lowMask 64 12 j
  have spliced := Lib.Bits.toNat_splice (n := 12) (BitVec.ofNat 64 addr) 0
    (BitVec.ofNat 64 addr &&& ~~~(BitVec.ofNat 64 pageSize - 1))
    (by
      intro i high inWord
      rw [BitVec.getLsbD_and, BitVec.getLsbD_not, mask]
      simp [inWord, Nat.not_lt_of_le high])
    (by
      intro i low inWord
      rw [BitVec.getLsbD_and, BitVec.getLsbD_not, mask]
      simp [inWord, low])
  rw [BitVec.toNat_ofNat, Nat.mod_eq_of_lt small] at spliced
  simpa [alignDown, pageSize_eq] using spliced

theorem mem_stepBy {start stop step addr : Nat} (pos : 0 < step) :
    addr ∈ stepBy start stop step ↔ ∃ i, addr = start + i * step ∧ addr < stop := by
  simp only [stepBy, List.mem_map, List.mem_range]
  constructor
  · rintro ⟨i, bound, rfl⟩
    refine ⟨i, rfl, ?_⟩
    rw [Nat.lt_iff_add_one_le, Nat.le_div_iff_mul_le pos, Nat.add_mul, Nat.one_mul] at bound
    omega
  · rintro ⟨i, rfl, below⟩
    refine ⟨i, ?_, rfl⟩
    rw [Nat.lt_iff_add_one_le, Nat.le_div_iff_mul_le pos, Nat.add_mul, Nat.one_mul]
    omega

namespace Section

variable (sec : Section)

def covers (addr : Nat) : Prop :=
  alignDown sec.start pageSize ≤ addr ∧ addr < alignUp sec.stop pageSize

instance (addr : Nat) : Decidable (sec.covers addr) :=
  inferInstanceAs (Decidable (_ ∧ _))

def pages : List Nat :=
  stepBy (alignDown sec.start pageSize) (alignUp sec.stop pageSize) pageSize

variable {sec}

theorem mem_pages (small : sec.start < 2 ^ 64) {addr : Nat} :
    addr ∈ sec.pages ↔ addr % pageSize = 0 ∧ sec.covers addr := by
  have up := nextMultipleOf_mod sec.stop pageSize pageSize_pos
  rw [pages, mem_stepBy (by decide), covers, alignDown_eq small]
  rw [pageSize_eq] at *
  constructor
  · rintro ⟨i, rfl, below⟩
    omega
  · rintro ⟨aligned, low, below⟩
    exact ⟨(addr - sec.start / 4096 * 4096) / 4096, by omega, below⟩

theorem covers_page (small : sec.start < 2 ^ 64) {addr : Nat} :
    sec.covers (addr / pageSize * pageSize) ↔ sec.covers addr := by
  have up : alignUp sec.stop pageSize % pageSize = 0 :=
    nextMultipleOf_mod sec.stop pageSize pageSize_pos
  rw [covers, covers, alignDown_eq small]
  rw [pageSize_eq] at *
  omega

end Section

/-! ## Views -/

/-- The number of the virtual page of `va`: address bits 12 to 38. -/
def pageOf (va : BitVec 64) : Nat := va.toNat / pageSize % 2 ^ 27

theorem pageOf_testBit (va : BitVec 64) (i : Nat) :
    (pageOf va).testBit i = (decide (i < 27) && va.getLsbD (i + 12)) := by
  rw [pageOf, Nat.testBit_mod_two_pow, show pageSize = 2 ^ 12 from rfl,
    Nat.testBit_div_two_pow]
  rfl

theorem samePage_zero_iff {va va' : BitVec 64} : SamePage 0 va va' ↔ pageOf va = pageOf va' := by
  constructor
  · intro same
    apply Nat.eq_of_testBit_eq
    intro i
    rw [pageOf_testBit, pageOf_testBit]
    by_cases inPage : i < 27
    · rw [same (i + 12) (by omega) (by omega)]
    · simp [inPage]
  · intro same b low high
    have bit := congrArg (fun n => n.testBit (b - 12)) same
    have inPage : b - 12 < 27 := by omega
    have back : b - 12 + 12 = b := by omega
    simpa [pageOf_testBit, inPage, back] using bit

def idEntry (page : Nat) (bits : PteFlags) : Nat × Entry :=
  (0, leafEntry (BitVec.ofNat 64 (page * pageSize)) bits)

/-- The table maps exactly the pages that have flags in `view`, each to itself. -/
structure Shows (m : Mem) (root : Nat) (view : Nat → Option PteFlags) : Prop where
  table : PageTable m root
  leaves : LeafLevel m root
  leafOf : ∀ va, leafOf m root va = (view (pageOf va)).map (idEntry (pageOf va))

namespace Shows

variable {m : Mem} {root : Nat} {view : Nat → Option PteFlags}

theorem pathClear (shows : Shows m root view) (va : BitVec 64) : PathClear m root va 0 := by
  refine ⟨?_, ?_⟩
  · intro i above high base atBase valid
    by_contra leaf
    have found := shows.leafOf va
    rw [leafOf_at_table high atBase, leafWalk_leaf valid (by simpa using leaf)] at found
    obtain ⟨bits, _, entry⟩ := Option.map_eq_some_iff.mp found.symm
    have level := congrArg Prod.fst entry
    change 0 = i at level
    omega
  · intro base atBase valid
    by_contra branch
    have pointer := child_of_branch valid (by simpa using branch)
    rw [shows.leaves (vpn va 2) (vpn va 1) base atBase (vpn va 0)] at pointer
    cases pointer

theorem v2p_eq (shows : Shows m root view) {va : BitVec 64} (low : va.toNat < 2 ^ 39) :
    v2p m root va = .ok ((view (va.toNat / pageSize)).map fun _ => va) := by
  have page : pageOf va = va.toNat / pageSize := by
    rw [pageOf, Nat.mod_eq_of_lt]
    rw [pageSize_eq]
    omega
  rw [v2p_eq_leafOf shows.table, shows.leafOf, page, Option.map_map]
  congr 2
  funext bits
  apply BitVec.eq_of_toNat_eq
  have whole : (BitVec.ofNat 64 (va.toNat / pageSize * pageSize)).toNat =
      va.toNat / pageSize * pageSize := by
    rw [BitVec.toNat_ofNat, Nat.mod_eq_of_lt]
    rw [pageSize_eq]
    omega
  have offset : va.toNat % 4096 < 2 ^ 12 := Nat.mod_lt _ (by decide)
  change (leafAddress 0 (leafEntry _ bits) va).toNat = _
  rw [leafAddress_leafEntry (by decide) (by rw [whole, pageSize_eq]; omega), whole]
  calc va.toNat / pageSize * pageSize / 2 ^ 12 * 2 ^ 12 ||| va.toNat % 2 ^ 12
      = 2 ^ 12 * (va.toNat / 4096) ||| va.toNat % 4096 := by
        rw [pageSize_eq, show (2 : Nat) ^ 12 = 4096 from rfl,
          Nat.mul_div_cancel _ (Nat.succ_pos 4095), Nat.mul_comm]
    _ = 2 ^ 12 * (va.toNat / 4096) + va.toNat % 4096 :=
        (Nat.two_pow_add_eq_or_of_lt offset _).symm
    _ = va.toNat := Nat.div_add_mod _ _

end Shows

def paint (view : Nat → Option PteFlags) (sec : Section) : Nat → Option PteFlags :=
  fun page => if sec.covers (page * pageSize) then some sec.flags else view page

section Paint
variable {σ : Type} {allocate : σ → Option (Nat × σ)} {root : Nat}
  {wanted : Finset (List (Fin 512))}

def pathTables (addr : Nat) : Finset (List (Fin 512)) :=
  {tablePath (BitVec.ofNat 64 addr) 0, tablePath (BitVec.ofNat 64 addr) 1}

theorem idMapPages_shows {bits : PteFlags} (rwx : bits.bits &&& PteFlags.RWX.bits ≠ 0)
    (short : ∀ p ∈ wanted, p.length ≤ 2) {addrs : List Nat}
    (aligned : ∀ addr ∈ addrs, addr % pageSize = 0 ∧ addr < 2 ^ 39)
    (wants : ∀ addr ∈ addrs, pathTables addr ⊆ wanted) {m : Mem} {s : σ}
    {view : Nat → Option PteFlags} (shows : Shows m root view)
    (stocked : Stocked allocate root wanted m s) :
    ∃ m' s', idMapPages allocate root bits addrs m s = .ok (m', s') ∧
      Stocked allocate root wanted m' s' ∧
      Shows m' root fun page => if page * pageSize ∈ addrs then some bits else view page := by
  induction addrs generalizing m s view with
  | nil => exact ⟨m, s, rfl, stocked, by simpa using shows⟩
  | cons addr rest ih =>
      obtain ⟨whole, low⟩ := aligned addr (List.mem_cons_self ..)
      have tables := wants addr (List.mem_cons_self ..)
      have wantsTable : ∀ i, 0 ≤ i → i + 1 ≤ 2 →
          tablePath (BitVec.ofNat 64 addr) i ∈ wanted := by
        intro i _ top
        have below : i < 2 := top
        interval_cases i
        · exact tables (Finset.mem_insert_self _ _)
        · exact tables (Finset.mem_insert_of_mem (Finset.mem_singleton_self _))
      obtain ⟨m₁, s₁, success, installed, stocked₁⟩ :=
        map_stocked (BitVec.ofNat 64 addr) (by decide) rwx short wantsTable stocked
          shows.table (shows.pathClear _)
      have page : pageOf (BitVec.ofNat 64 addr) = addr / pageSize := by
        rw [pageOf, BitVec.toNat_ofNat, pageSize_eq]
        omega
      have shows₁ : Shows m₁ root fun page =>
          if page * pageSize = addr then some bits else view page := by
        refine ⟨installed.table, installed.leaves shows.leaves, fun va => ?_⟩
        by_cases here : pageOf va * pageSize = addr
        · have same : SamePage 0 (BitVec.ofNat 64 addr) va := by
            rw [samePage_zero_iff, page, ← here, Nat.mul_div_cancel _ pageSize_pos]
          rw [installed.inside va same, if_pos here, ← here]
          rfl
        · have apart : ¬ SamePage 0 (BitVec.ofNat 64 addr) va := by
            rw [samePage_zero_iff, page]
            intro same
            rw [pageSize_eq] at *
            omega
          rw [installed.outside va apart, shows.leafOf, if_neg here]
      obtain ⟨m', s', done, stocked', shows'⟩ :=
        ih (fun a member => aligned a (List.mem_cons_of_mem _ member))
          (fun a member => wants a (List.mem_cons_of_mem _ member)) shows₁ stocked₁
      refine ⟨m', s', ?_, stocked', ?_⟩
      · rw [idMapPages, success]
        exact done
      · convert shows' using 2 with page
        by_cases later : page * pageSize ∈ rest
        · simp [later]
        · by_cases here : page * pageSize = addr
          · simp [here]
          · simp [later, here]

/-- What is asked of a section: whole page numbers stay below `2 ^ 27`, and the flags make
a leaf. -/
structure Section.Sound (sec : Section) : Prop where
  start : sec.start < 2 ^ 64
  stop : alignUp sec.stop pageSize ≤ 2 ^ 39
  rwx : sec.flags.bits &&& PteFlags.RWX.bits ≠ 0

theorem mapSection_shows {sec : Section} (sound : sec.Sound)
    (short : ∀ p ∈ wanted, p.length ≤ 2) (wants : ∀ addr ∈ sec.pages, pathTables addr ⊆ wanted)
    {m : Mem} {s : σ} {view : Nat → Option PteFlags} (shows : Shows m root view)
    (stocked : Stocked allocate root wanted m s) :
    ∃ m' s', mapSection allocate root sec.start sec.stop sec.flags m s = .ok (m', s') ∧
      Stocked allocate root wanted m' s' ∧ Shows m' root (paint view sec) := by
  have aligned : ∀ addr ∈ sec.pages, addr % pageSize = 0 ∧ addr < 2 ^ 39 := by
    intro addr member
    obtain ⟨whole, covered⟩ := (Section.mem_pages sound.start).mp member
    exact ⟨whole, lt_of_lt_of_le covered.2 sound.stop⟩
  obtain ⟨m', s', done, stocked', shows'⟩ :=
    idMapPages_shows sound.rwx short aligned wants shows stocked
  refine ⟨m', s', ?_, stocked', ?_⟩
  · have down : alignDown sec.start pageSize % pageSize = 0 := by
      rw [alignDown_eq sound.start]
      exact Nat.mul_mod_left _ _
    have up : alignUp sec.stop pageSize % pageSize = 0 :=
      nextMultipleOf_mod _ _ pageSize_pos
    rw [mapSection, idMapRange, if_neg (not_not.mpr down), if_neg (not_not.mpr up)]
    exact done
  · convert shows' using 2 with page
    have member : page * pageSize ∈ sec.pages ↔ sec.covers (page * pageSize) := by
      rw [Section.mem_pages sound.start, and_iff_right (Nat.mul_mod_left _ _)]
    simp only [paint, member]

theorem mapSections_shows {secs : List Section} (sound : ∀ sec ∈ secs, sec.Sound)
    (short : ∀ p ∈ wanted, p.length ≤ 2)
    (wants : ∀ sec ∈ secs, ∀ addr ∈ sec.pages, pathTables addr ⊆ wanted)
    {m : Mem} {s : σ} {view : Nat → Option PteFlags} (shows : Shows m root view)
    (stocked : Stocked allocate root wanted m s) :
    ∃ m' s', mapSections allocate root secs m s = .ok (m', s') ∧
      Shows m' root (secs.foldl paint view) := by
  induction secs generalizing m s view with
  | nil => exact ⟨m, s, rfl, shows⟩
  | cons sec rest ih =>
      obtain ⟨m₁, s₁, success, stocked₁, shows₁⟩ :=
        mapSection_shows (sound sec (List.mem_cons_self ..)) short
          (wants sec (List.mem_cons_self ..)) shows stocked
      obtain ⟨m', s', done, shows'⟩ :=
        ih (fun sec member => sound sec (List.mem_cons_of_mem _ member))
          (fun sec member => wants sec (List.mem_cons_of_mem _ member)) shows₁ stocked₁
      refine ⟨m', s', ?_, shows'⟩
      rw [mapSections, success]
      exact done

end Paint

theorem foldl_paint_same {secs : List Section} {view : Nat → Option PteFlags} {page : Nat}
    (apart : ∀ sec ∈ secs, ¬ sec.covers (page * pageSize)) :
    secs.foldl paint view page = view page := by
  induction secs generalizing view with
  | nil => rfl
  | cons sec rest ih =>
      rw [List.foldl_cons, ih fun sec member => apart sec (List.mem_cons_of_mem _ member)]
      exact if_neg (apart sec (List.mem_cons_self ..))

theorem foldl_paint_flags {secs : List Section} {view : Nat → Option PteFlags} {page : Nat}
    {flags : PteFlags} (same : ∀ sec ∈ secs, sec.flags = flags)
    (covered : ∃ sec ∈ secs, sec.covers (page * pageSize)) :
    secs.foldl paint view page = some flags := by
  induction secs generalizing view with
  | nil =>
      obtain ⟨sec, member, _⟩ := covered
      cases member
  | cons sec rest ih =>
      rw [List.foldl_cons]
      by_cases later : ∃ sec ∈ rest, sec.covers (page * pageSize)
      · exact ih (fun sec member => same sec (List.mem_cons_of_mem _ member)) later
      · rw [foldl_paint_same fun sec member covers => later ⟨sec, member, covers⟩]
        obtain ⟨other, member, covers⟩ := covered
        rcases List.mem_cons.mp member with rfl | member
        · rw [paint, if_pos covers, same other (List.mem_cons_self ..)]
        · exact absurd ⟨other, member, covers⟩ later

theorem foldl_paint_mem {secs : List Section} {allowed : PteFlags → Prop}
    (sound : ∀ sec ∈ secs, allowed sec.flags) {view : Nat → Option PteFlags} {page : Nat}
    (start : ∀ flags, view page = some flags → allowed flags) :
    ∀ flags, secs.foldl paint view page = some flags → allowed flags := by
  induction secs generalizing view with
  | nil => exact start
  | cons sec rest ih =>
      rw [List.foldl_cons]
      refine ih (fun sec member => sound sec (List.mem_cons_of_mem _ member)) ?_
      intro flags painted
      rw [paint] at painted
      split at painted
      · rw [← Option.some.inj painted]
        exact sound sec (List.mem_cons_self ..)
      · exact start flags painted

/-! ## The layouts of the linker script -/

section Layouts
variable (l : Layout)

theorem alignUp_le {addr bound : Nat} (le : addr ≤ bound) (aligned : bound % pageSize = 0) :
    alignUp addr pageSize ≤ bound := by
  rw [alignUp, nextMultipleOf]
  rw [pageSize_eq] at *
  split <;> omega

theorem dataSections_flags : ∀ sec ∈ dataSections l, sec.flags = rw := by
  intro sec member
  simp only [dataSections, List.mem_cons, List.not_mem_nil, or_false] at member
  rcases member with rfl | rfl | rfl | rfl | rfl | rfl <;> rfl

theorem text_below_rodata {addr : Nat} (covers : (textSection l).covers addr) :
    textStart ≤ addr ∧ addr < l.rodataStart := by
  have down : alignDown textStart pageSize = textStart := by
    rw [alignDown_eq (by decide)]
    rfl
  have up := alignUp_le l.text_rodata l.rodataAligned
  obtain ⟨low, high⟩ := covers
  change alignDown textStart pageSize ≤ addr at low
  change addr < alignUp l.textEnd pageSize at high
  omega

theorem rodata_below_data {addr : Nat} (covers : (rodataSection l).covers addr) :
    l.rodataStart ≤ addr ∧ addr < l.dataStart := by
  have order := (l.rodata.trans l.rodata_data).trans
    ((l.data.trans l.data_bss).trans (l.bss.trans l.inRam))
  have aligned := l.rodataAligned
  have down : alignDown l.rodataStart pageSize = l.rodataStart := by
    rw [alignDown_eq (by rw [memoryEnd] at order; omega)]
    rw [pageSize_eq] at *
    omega
  have up := alignUp_le l.rodata_data l.dataAligned
  obtain ⟨low, high⟩ := covers
  change alignDown l.rodataStart pageSize ≤ addr at low
  change addr < alignUp l.rodataEnd pageSize at high
  omega

theorem dataSections_apart {sec : Section} (member : sec ∈ dataSections l) {addr : Nat}
    (covers : sec.covers addr) : addr < textStart ∨ l.dataStart ≤ addr := by
  have order := l.data
  have order' := l.data_bss
  have order'' := l.bss
  have ram := l.inRam
  have aligned := l.dataAligned
  have down : ∀ start, start < 2 ^ 64 → alignDown start pageSize = start / 4096 * 4096 :=
    fun start small => alignDown_eq small
  rw [pageSize_eq] at aligned
  simp only [dataSections, List.mem_cons, List.not_mem_nil, or_false] at member
  obtain ⟨low, high⟩ := covers
  rw [memoryEnd] at ram
  rcases member with rfl | rfl | rfl | rfl | rfl | rfl
  · rw [down _ (by dsimp only; omega)] at low
    dsimp only at low
    omega
  · rw [down _ (by dsimp only; omega)] at low
    dsimp only at low
    omega
  · rw [down _ (by dsimp only [Layout.stackStart]; omega)] at low
    dsimp only [Layout.stackStart] at low
    omega
  · rw [down _ (by dsimp only [Layout.heapStart, Layout.stackEnd, Layout.stackStart]; omega)]
      at low
    dsimp only [Layout.heapStart, Layout.stackEnd, Layout.stackStart] at low
    omega
  · refine .inl (lt_of_lt_of_le high ?_)
    decide +kernel
  · refine .inl (lt_of_lt_of_le high ?_)
    decide +kernel

theorem sections_sound : ∀ sec ∈ sections l, sec.Sound := by
  have order := l.text
  have order₁ := l.text_rodata
  have order₂ := l.rodata
  have order₃ := l.rodata_data
  have order₄ := l.data
  have order₅ := l.data_bss
  have order₆ := l.bss
  have ram := l.inRam
  rw [memoryEnd] at ram
  have up : ∀ stop, stop ≤ 0x90000000 → alignUp stop pageSize ≤ 2 ^ 39 := by
    intro stop small
    exact (alignUp_le small (by decide)).trans (by decide)
  have rxLeaf : rx.bits &&& PteFlags.RWX.bits ≠ 0 := by decide
  have roLeaf : ro.bits &&& PteFlags.RWX.bits ≠ 0 := by decide
  have rwLeaf : rw.bits &&& PteFlags.RWX.bits ≠ 0 := by decide
  intro sec member
  simp only [sections, dataSections, textSection, rodataSection, List.mem_cons,
    List.not_mem_nil, or_false] at member
  rcases member with rfl | rfl | rfl | rfl | rfl | rfl | rfl | rfl
  · exact ⟨show textStart < 2 ^ 64 by decide, up _ (by dsimp only; omega), rxLeaf⟩
  · exact ⟨by dsimp only; omega, up _ (by dsimp only; omega), roLeaf⟩
  · exact ⟨by dsimp only; omega, up _ (by dsimp only; omega), rwLeaf⟩
  · exact ⟨by dsimp only; omega, up _ (by dsimp only; omega), rwLeaf⟩
  · exact ⟨by dsimp only [Layout.stackStart]; omega,
      up _ (by dsimp only [Layout.stackEnd, Layout.stackStart]; omega), rwLeaf⟩
  · exact ⟨by dsimp only [Layout.heapStart, Layout.stackEnd, Layout.stackStart]; omega,
      up memoryEnd (by decide), rwLeaf⟩
  · exact ⟨by decide +kernel, up _ (by decide +kernel), rwLeaf⟩
  · exact ⟨by decide, up _ (by decide), rwLeaf⟩

def KernelFlags (flags : PteFlags) : Prop := flags = rx ∨ flags = ro ∨ flags = rw

theorem sections_flags : ∀ sec ∈ sections l, KernelFlags sec.flags := by
  intro sec member
  rcases List.mem_cons.mp member with rfl | member
  · exact .inl rfl
  · rcases List.mem_cons.mp member with rfl | member
    · exact .inr (.inl rfl)
    · exact .inr (.inr (dataSections_flags l sec member))

/-- Flags of a page after the eight calls. -/
def kernelView : Nat → Option PteFlags := (sections l).foldl paint fun _ => none

variable {l}

theorem kernelView_text {page : Nat} (covers : (textSection l).covers (page * pageSize)) :
    kernelView l page = some rx := by
  obtain ⟨low, high⟩ := text_below_rodata l covers
  have order := l.rodata.trans l.rodata_data
  have notRodata : ¬ (rodataSection l).covers (page * pageSize) := fun other => by
    have := rodata_below_data l other
    omega
  rw [kernelView, sections, List.foldl_cons, List.foldl_cons, foldl_paint_same]
  · rw [paint, if_neg notRodata, paint, if_pos covers]
    rfl
  · intro sec member other
    have := dataSections_apart l member other
    omega

theorem kernelView_rodata {page : Nat} (covers : (rodataSection l).covers (page * pageSize)) :
    kernelView l page = some ro := by
  obtain ⟨low, high⟩ := rodata_below_data l covers
  have order := l.text.trans l.text_rodata
  rw [kernelView, sections, List.foldl_cons, List.foldl_cons, foldl_paint_same]
  · rw [paint, if_pos covers]
    rfl
  · intro sec member other
    have := dataSections_apart l member other
    omega

theorem kernelView_data {page : Nat}
    (covered : ∃ sec ∈ dataSections l, sec.covers (page * pageSize)) :
    kernelView l page = some rw := by
  rw [kernelView, sections, List.foldl_cons, List.foldl_cons]
  exact foldl_paint_flags (dataSections_flags l) covered

theorem kernelView_none {page : Nat}
    (apart : ∀ sec ∈ sections l, ¬ sec.covers (page * pageSize)) : kernelView l page = none :=
  foldl_paint_same apart

/-- The tables below the root that the pages of the eight sections need. -/
def kernelTables (l : Layout) : Finset (List (Fin 512)) :=
  ((sections l).flatMap Section.pages).toFinset.biUnion pathTables

theorem kernelTables_short : ∀ p ∈ kernelTables l, p.length ≤ 2 := by
  intro p member
  obtain ⟨addr, _, member⟩ := Finset.mem_biUnion.mp member
  rw [pathTables, Finset.mem_insert, Finset.mem_singleton] at member
  rcases member with rfl | rfl
  · exact (tablePath_length _ 0).le
  · exact (tablePath_length _ 1).le.trans (by decide)

theorem pathTables_subset {sec : Section} (member : sec ∈ sections l) {addr : Nat}
    (inPages : addr ∈ sec.pages) : pathTables addr ⊆ kernelTables l := by
  apply Finset.subset_biUnion_of_mem
  rw [List.mem_toFinset]
  exact List.mem_flatMap.mpr ⟨sec, member, inPages⟩

end Layouts

theorem shows_zeroRoot {m : Mem} {root : Nat} (aligned : root % pageSize = 0)
    (nonNull : root ≠ 0) (zero : ∀ i, m (entryAddr root i) = 0) :
    Shows m root fun _ => none where
  table := pageTable_zeroRoot aligned nonNull zero
  leaves := by
    intro i j base atBase
    have short := (follow_zeroRoot zero atBase).1
    cases short
  leafOf := by
    intro va
    rw [Mm.Sv39.leafOf, leafWalk_invalid]
    · rfl
    · rw [zero]
      exact isValid_zero

/-! ## Permissions -/

def permissions (e : Entry) : Bool × Bool × Bool :=
  (e &&& PteFlags.READ.bits != 0, e &&& PteFlags.WRITE.bits != 0,
    e &&& PteFlags.EXECUTE.bits != 0)

theorem leafEntry_and (pa : BitVec 64) (bits f : PteFlags) (notValid : f.bits.getLsbD 0 = false) :
    (leafEntry pa bits &&& f.bits != 0) = (bits.bits &&& f.bits != 0) := by
  have shared : ∀ i, f.bits.getLsbD i = true →
      (leafEntry pa bits).getLsbD i = bits.bits.getLsbD i := by
    intro i bit
    have low : i < 8 := by
      by_contra high
      rw [flags_getLsbD_of_ge f (by omega)] at bit
      cases bit
    have notZero : i ≠ 0 := by
      rintro rfl
      rw [notValid] at bit
      cases bit
    rw [leafEntry_getLsbD_low pa bits (by omega)]
    simp [notZero]
  rw [Bool.eq_iff_iff, Lib.Bits.and_ne_zero_iff, Lib.Bits.and_ne_zero_iff]
  constructor
  · rintro ⟨i, left, right⟩
    exact ⟨i, shared i right ▸ left, right⟩
  · rintro ⟨i, left, right⟩
    exact ⟨i, (shared i right).trans left, right⟩

theorem permissions_idEntry (page : Nat) (bits : PteFlags) :
    permissions (idEntry page bits).2 = permissions bits.bits := by
  rw [permissions, idEntry, leafEntry_and _ _ _ (by decide), leafEntry_and _ _ _ (by decide),
    leafEntry_and _ _ _ (by decide)]
  rfl

theorem Shows.permissions {m : Mem} {root : Nat} {view : Nat → Option PteFlags}
    (shows : Shows m root view) {va : BitVec 64} {flags : PteFlags}
    (painted : view (pageOf va) = some flags) :
    ∃ e, Mm.Sv39.leafOf m root va = some (0, e) ∧
      Boot.permissions e = Boot.permissions flags.bits := by
  refine ⟨(idEntry (pageOf va) flags).2, ?_, permissions_idEntry _ _⟩
  rw [shows.leafOf, painted]
  rfl

/-! ## How many tables there are -/

theorem vpn_val {i : Nat} (level : i ≤ 2) (va : BitVec 64) :
    (vpn va i).val = va.toNat / 2 ^ (12 + 9 * i) % 512 := by
  have mask : (0x1ff#64).toNat = 2 ^ 9 - 1 := rfl
  change (vpnBits va i).toNat = _
  rw [vpnBits_eq va level, BitVec.toNat_and, BitVec.toNat_ushiftRight, mask,
    Nat.and_two_pow_sub_one_eq_mod, Nat.shiftRight_eq_div_pow]

/-- The addresses of the two groups of sections: the devices, and RAM with the stack
above it. -/
theorem sections_range {l : Layout} {sec : Section} (member : sec ∈ sections l) {addr : Nat}
    (covers : sec.covers addr) :
    (0x10000000 ≤ addr ∧ addr < 0x10009000) ∨ (textStart ≤ addr ∧ addr < 0x88081000) := by
  have order := l.text
  have order₁ := l.text_rodata
  have order₂ := l.rodata
  have order₃ := l.rodata_data
  have order₄ := l.data
  have order₅ := l.data_bss
  have order₆ := l.bss
  have ram := l.inRam
  rw [memoryEnd] at ram
  have start := (sections_sound l sec member).start
  have ⟨low, high⟩ := covers
  rw [alignDown_eq start, pageSize_eq] at low
  have up : ∀ stop, stop ≤ 0x88080000 → addr < alignUp stop pageSize → addr < 0x88081000 :=
    fun stop small below => lt_of_lt_of_le below
      ((alignUp_le small (by decide)).trans (by decide))
  simp only [sections, dataSections, textSection, rodataSection, List.mem_cons,
    List.not_mem_nil, or_false] at member
  rcases member with rfl | rfl | rfl | rfl | rfl | rfl | rfl | rfl
  · exact .inr ⟨(text_below_rodata l covers).1, up _ (by dsimp only; omega) high⟩
  · exact .inr ⟨by dsimp only [textStart] at *; omega, up _ (by dsimp only; omega) high⟩
  · exact .inr ⟨by dsimp only [textStart] at *; omega, up _ (by dsimp only; omega) high⟩
  · exact .inr ⟨by dsimp only [textStart] at *; omega, up _ (by dsimp only; omega) high⟩
  · rw [textStart] at *
    refine .inr ⟨?_, up _ ?_ high⟩
    · dsimp only [Layout.stackStart] at low
      omega
    · dsimp only [Layout.stackEnd, Layout.stackStart]
      omega
  · rw [textStart] at *
    refine .inr ⟨?_, up memoryEnd (by decide) high⟩
    dsimp only [Layout.heapStart, Layout.stackEnd, Layout.stackStart] at low
    omega
  · have base : alignDown uartBase pageSize = 0x10000000 := alignDown_eq (by decide)
    have stop : alignUp (0x10000000 + pageSize) pageSize = 0x10001000 := by decide
    simp only [base, stop] at low high
    omega
  · have stop : alignUp (mmioVirtioEnd + mmioVirtioStride) pageSize = 0x10009000 := by decide
    simp only [stop] at high
    dsimp only [mmioVirtioStart] at low
    omega

/-- At most 68 frames hold the tables of the kernel: two of level 1, one of level 0 for the
devices and one for each 2 MiB of RAM and of the stack above it. -/
theorem kernelTables_card (l : Layout) : (kernelTables l).card ≤ 68 := by
  let places : Finset (List (Fin 512)) :=
    {[0], [2], [0, 128]} ∪ (Finset.range 65).image fun j => [2, Fin.ofNat 512 j]
  have inPlaces : kernelTables l ⊆ places := by
    intro p member
    obtain ⟨addr, inPages, inPath⟩ := Finset.mem_biUnion.mp member
    rw [List.mem_toFinset, List.mem_flatMap] at inPages
    obtain ⟨sec, inSections, inPages⟩ := inPages
    have covers := ((Section.mem_pages (sections_sound l sec inSections).start).mp inPages).2
    have value : (BitVec.ofNat 64 addr).toNat = addr := by
      rw [BitVec.toNat_ofNat, Nat.mod_eq_of_lt]
      have range := sections_range inSections covers
      rw [textStart] at range
      omega
    have top := vpn_val (le_refl 2) (BitVec.ofNat 64 addr)
    have middle := vpn_val (show 1 ≤ 2 by decide) (BitVec.ofNat 64 addr)
    rw [value] at top middle
    rw [pathTables, Finset.mem_insert, Finset.mem_singleton] at inPath
    rcases sections_range inSections covers with ⟨low, high⟩ | ⟨low, high⟩
    · have first : vpn (BitVec.ofNat 64 addr) 2 = 0 := Fin.ext (by omega)
      have second : vpn (BitVec.ofNat 64 addr) 1 = 128 := Fin.ext (by omega)
      rcases inPath with rfl | rfl
      · change [vpn (BitVec.ofNat 64 addr) 2, vpn (BitVec.ofNat 64 addr) 1] ∈ places
        rw [first, second]
        exact Finset.mem_union_left _ (Finset.mem_insert_of_mem (Finset.mem_insert_of_mem
          (Finset.mem_singleton_self _)))
      · change [vpn (BitVec.ofNat 64 addr) 2] ∈ places
        rw [first]
        exact Finset.mem_union_left _ (Finset.mem_insert_self _ _)
    · rw [textStart] at low
      have first : vpn (BitVec.ofNat 64 addr) 2 = 2 := Fin.ext (by omega)
      rcases inPath with rfl | rfl
      · change [vpn (BitVec.ofNat 64 addr) 2, vpn (BitVec.ofNat 64 addr) 1] ∈ places
        rw [first]
        refine Finset.mem_union_right _ (Finset.mem_image.mpr
          ⟨(vpn (BitVec.ofNat 64 addr) 1).val, Finset.mem_range.mpr (by omega), ?_⟩)
        rw [Fin.ofNat_val_eq_self]
      · change [vpn (BitVec.ofNat 64 addr) 2] ∈ places
        rw [first]
        exact Finset.mem_union_left _ (Finset.mem_insert_of_mem (Finset.mem_insert_self _ _))
  calc (kernelTables l).card ≤ places.card := Finset.card_le_card inPlaces
    _ ≤ 3 + 65 := (Finset.card_union_le _ _).trans
        (Nat.add_le_add Finset.card_le_three (Finset.card_image_le.trans_eq (Finset.card_range 65)))

-- the number of tables must not be computed when it appears in a statement
attribute [irreducible] kernelTables

/-! ## The boot map -/

theorem kinitMap_shows {σ : Type} {l : Layout} {allocate : σ → Option (Nat × σ)} {root : Nat}
    {m : Mem} {s : σ} (aligned : root % pageSize = 0) (nonNull : root ≠ 0)
    (zero : ∀ i, m (entryAddr root i) = 0)
    (supplies : Supplies allocate (kernelTables l).card s {root}) :
    ∃ m' s', kinitMap allocate root l m s = .ok (m', s') ∧ Shows m' root (kernelView l) := by
  have stocked : Stocked allocate root (kernelTables l) m s := by
    rw [Stocked, tables_zeroRoot zero]
    exact supplies.of_le (Finset.card_filter_le _ _)
  exact mapSections_shows (sections_sound l) kernelTables_short
    (fun sec member addr inPages => pathTables_subset member inPages)
    (shows_zeroRoot aligned nonNull zero) stocked

section View
variable {l : Layout} {va : BitVec 64}

theorem pageOf_low (low : va.toNat < 2 ^ 39) : pageOf va = va.toNat / pageSize := by
  rw [pageOf, Nat.mod_eq_of_lt]
  rw [pageSize_eq]
  omega

theorem sections_cover_page {sec : Section} (member : sec ∈ sections l)
    (low : va.toNat < 2 ^ 39) :
    sec.covers (pageOf va * pageSize) ↔ sec.covers va.toNat := by
  rw [pageOf_low low]
  exact Section.covers_page (sections_sound l sec member).start

theorem view_text (low : va.toNat < 2 ^ 39) (covers : (textSection l).covers va.toNat) :
    kernelView l (pageOf va) = some rx :=
  kernelView_text ((sections_cover_page (List.mem_cons_self ..) low).mpr covers)

theorem view_rodata (low : va.toNat < 2 ^ 39) (covers : (rodataSection l).covers va.toNat) :
    kernelView l (pageOf va) = some ro :=
  kernelView_rodata ((sections_cover_page
    (List.mem_cons_of_mem _ (List.mem_cons_self ..)) low).mpr covers)

theorem view_data (low : va.toNat < 2 ^ 39)
    (covered : ∃ sec ∈ dataSections l, sec.covers va.toNat) :
    kernelView l (pageOf va) = some rw := by
  obtain ⟨sec, member, covers⟩ := covered
  have inSections : sec ∈ sections l := List.mem_cons_of_mem _ (List.mem_cons_of_mem _ member)
  exact kernelView_data ⟨sec, member, (sections_cover_page inSections low).mpr covers⟩

theorem view_none (low : va.toNat < 2 ^ 39)
    (apart : ∀ sec ∈ sections l, ¬ sec.covers va.toNat) : kernelView l (pageOf va) = none :=
  kernelView_none fun sec member covers =>
    apart sec member ((sections_cover_page member low).mp covers)

theorem sections_split {addr : Nat} (covered : ∃ sec ∈ sections l, sec.covers addr) :
    (textSection l).covers addr ∨ (rodataSection l).covers addr ∨
      ∃ sec ∈ dataSections l, sec.covers addr := by
  obtain ⟨sec, member, covers⟩ := covered
  rcases List.mem_cons.mp member with rfl | member
  · exact .inl covers
  · rcases List.mem_cons.mp member with rfl | member
    · exact .inr (.inl covers)
    · exact .inr (.inr ⟨sec, member, covers⟩)

theorem view_not_writable_executable {m : Mem} {root i : Nat} {e : BitVec 64}
    (shows : Shows m root (kernelView l)) (found : leafOf m root va = some (i, e)) :
    ¬ ((permissions e).2.1 = true ∧ (permissions e).2.2 = true) := by
  rw [shows.leafOf] at found
  obtain ⟨flags, painted, entry⟩ := Option.map_eq_some_iff.mp found
  have last : KernelFlags flags :=
    foldl_paint_mem (sections_flags l) (fun f absent => by cases absent) flags painted
  have bits : permissions e = permissions flags.bits := by
    rw [← permissions_idEntry (pageOf va), entry]
  rw [bits]
  rcases last with rfl | rfl | rfl <;> decide

end View

/-- After the eight calls every page of the rounded sections maps to itself and nothing
else below `2 ^ 39` is mapped; text is read-execute, rodata read-only, everything else
read-write. -/
theorem kinitMap_exact {σ : Type} (l : Layout) (allocate : σ → Option (Nat × σ)) (root : Nat)
    (m : Mem) (s : σ) (aligned : root % pageSize = 0) (nonNull : root ≠ 0)
    (zero : ∀ i, m (entryAddr root i) = 0)
    (supplies : Supplies allocate (kernelTables l).card s {root}) :
    ∃ m' s', kinitMap allocate root l m s = .ok (m', s') ∧
      (∀ va : BitVec 64, va.toNat < 2 ^ 39 →
        ((∃ sec ∈ sections l, sec.covers va.toNat) → v2p m' root va = .ok (some va)) ∧
        ((∀ sec ∈ sections l, ¬ sec.covers va.toNat) → v2p m' root va = .ok none) ∧
        ((textSection l).covers va.toNat →
          ∃ e, leafOf m' root va = some (0, e) ∧ permissions e = (true, false, true)) ∧
        ((rodataSection l).covers va.toNat →
          ∃ e, leafOf m' root va = some (0, e) ∧ permissions e = (true, false, false)) ∧
        ((∃ sec ∈ sections l, sec.covers va.toNat) → ¬ (textSection l).covers va.toNat →
          ¬ (rodataSection l).covers va.toNat →
          ∃ e, leafOf m' root va = some (0, e) ∧ permissions e = (true, true, false))) ∧
      ∀ va i e, leafOf m' root va = some (i, e) →
        ¬ ((permissions e).2.1 = true ∧ (permissions e).2.2 = true) := by
  obtain ⟨m', s', success, shows⟩ := kinitMap_shows aligned nonNull zero supplies
  refine ⟨m', s', success, fun va low => ⟨?_, ?_, ?_, ?_, ?_⟩, fun va i e found =>
    view_not_writable_executable shows found⟩
  · intro covered
    rw [shows.v2p_eq low, ← pageOf_low low]
    rcases sections_split covered with inText | inRodata | inData
    · rw [view_text low inText]
      rfl
    · rw [view_rodata low inRodata]
      rfl
    · rw [view_data low inData]
      rfl
  · intro apart
    rw [shows.v2p_eq low, ← pageOf_low low, view_none low apart]
    rfl
  · intro covers
    exact shows.permissions (view_text low covers)
  · intro covers
    exact shows.permissions (view_rodata low covers)
  · intro covered notText notRodata
    rcases sections_split covered with inText | inRodata | inData
    · exact absurd inText notText
    · exact absurd inRodata notRodata
    · exact shows.permissions (view_data low inData)

theorem bumpFrames_supplies (count next : Nat) (used : Set Nat) (aligned : next % pageSize = 0)
    (nonNull : next ≠ 0) (small : next + count * pageSize ≤ 2 ^ 64)
    (above : ∀ page ∈ used, page < next) : Supplies bumpFrames count next used := by
  induction count generalizing next used with
  | zero => trivial
  | succ count ih =>
      rw [pageSize_eq] at *
      refine ⟨next, next + pageSize, rfl, aligned, nonNull, by omega,
        fun member => absurd (above next member) (lt_irrefl _), ?_⟩
      rw [pageSize_eq]
      apply ih
      · omega
      · omega
      · omega
      · rintro page (rfl | member)
        · omega
        · exact (above page member).trans (by omega)

def smallLayout : Layout where
  textEnd := 0x80002345
  rodataStart := 0x80003000
  rodataEnd := 0x80004010
  dataStart := 0x80005000
  dataEnd := 0x80005008
  bssStart := 0x80005008
  bssEnd := 0x80005100
  text := by decide
  text_rodata := by decide
  rodata := by decide
  rodata_data := by decide
  data := by decide
  data_bss := by decide
  bss := by decide
  rodataAligned := by decide
  dataAligned := by decide
  inRam := by decide

theorem kinitMap_exact_smallLayout :
    ∃ m' s', kinitMap bumpFrames 0x1000 smallLayout (fun _ => 0) 0x2000 = .ok (m', s') ∧
      v2p m' 0x1000 0x80002fff#64 = .ok (some 0x80002fff#64) ∧
      v2p m' 0x1000 0x7ffff000#64 = .ok none := by
  have supplies : Supplies bumpFrames 68 0x2000 {0x1000} := by
    apply bumpFrames_supplies 68 0x2000 {0x1000} (by decide) (by decide) (by decide)
    intro page member
    rw [Set.mem_singleton_iff.mp member]
    decide
  obtain ⟨m', s', success, translates, _⟩ :=
    kinitMap_exact smallLayout bumpFrames 0x1000 (fun _ => 0) 0x2000 (by decide) (by decide)
      (fun _ => rfl) (supplies.of_le (kernelTables_card smallLayout))
  have text : (textSection smallLayout).covers 0x80002fff := by decide +kernel
  have below : ∀ sec ∈ sections smallLayout, ¬ sec.covers 0x7ffff000 := by decide +kernel
  refine ⟨m', s', success, ?_, ?_⟩
  · exact (translates 0x80002fff#64 (by decide)).1 ⟨_, List.mem_cons_self .., text⟩
  · exact (translates 0x7ffff000#64 (by decide)).2.1 below

end Vesper.Boot
