import Mathlib.Tactic

/-!
# The ELF64 reader

Model of `exec/elf.rs`.  A `&[u8]` is its address and the memory from its first byte on
together with its length, so that a read past the end is visible; its length stays below
`2 ^ 63`, as every Rust slice.  Both structures hold `usize` fields, so a reference to one
must be 8-aligned: the dev build aborts where it is formed at any other address, and
without that check it is undefined.  An item of `program_headers` is a reference: the place
it points to and the header found there.  `parse` bounds the table by `phnum * phentsize`
bytes while `program_headers` steps by the size of its own structure, and nothing looks at
the alignment of `phoff`.
-/

set_option autoImplicit false

namespace Vesper.Exec.Elf

def MAGIC : BitVec 32 := 0x464c457f

def machineRiscv : BitVec 16 := 0xf3

def typeExec : BitVec 16 := 2

structure Slice where
  addr : Nat
  bytes : Nat → BitVec 8
  len : Nat
  len_lt : len < 2 ^ 63

def Slice.number (buf : Slice) : Nat → Nat → Nat
  | _, 0 => 0
  | offset, size + 1 => (buf.bytes offset).toNat + 2 ^ 8 * buf.number (offset + 1) size

def Slice.u8 (buf : Slice) (offset : Nat) : BitVec 8 := buf.bytes offset
def Slice.u16 (buf : Slice) (offset : Nat) : BitVec 16 := BitVec.ofNat 16 (buf.number offset 2)
def Slice.u32 (buf : Slice) (offset : Nat) : BitVec 32 := BitVec.ofNat 32 (buf.number offset 4)
def Slice.usize (buf : Slice) (offset : Nat) : BitVec 64 := BitVec.ofNat 64 (buf.number offset 8)

structure Header where
  magic : BitVec 32
  bitsize : BitVec 8
  endian : BitVec 8
  identAbiVersion : BitVec 8
  targetPlatform : BitVec 8
  abiVersion : BitVec 8
  padding : Fin 7 → BitVec 8
  objType : BitVec 16
  machine : BitVec 16
  version : BitVec 32
  entryAddr : BitVec 64
  phoff : BitVec 64
  shoff : BitVec 64
  flags : BitVec 32
  ehsize : BitVec 16
  phentsize : BitVec 16
  phnum : BitVec 16
  shentsize : BitVec 16
  shnum : BitVec 16
  shstrndx : BitVec 16

/-- The `repr(C)` layout of `Header`. -/
def Header.read (buf : Slice) : Header where
  magic := buf.u32 0
  bitsize := buf.u8 4
  endian := buf.u8 5
  identAbiVersion := buf.u8 6
  targetPlatform := buf.u8 7
  abiVersion := buf.u8 8
  padding := fun i => buf.u8 (9 + i)
  objType := buf.u16 16
  machine := buf.u16 18
  version := buf.u32 20
  entryAddr := buf.usize 24
  phoff := buf.usize 32
  shoff := buf.usize 40
  flags := buf.u32 48
  ehsize := buf.u16 52
  phentsize := buf.u16 54
  phnum := buf.u16 56
  shentsize := buf.u16 58
  shnum := buf.u16 60
  shstrndx := buf.u16 62

def sizeOfHeader : Nat := 64

def alignOfHeader : Nat := 8

structure ProgramHeader where
  segType : BitVec 32
  flags : BitVec 32
  off : BitVec 64
  vaddr : BitVec 64
  paddr : BitVec 64
  filesz : BitVec 64
  memsz : BitVec 64
  align : BitVec 64
  deriving DecidableEq, Repr

/-- The `repr(C)` layout of `ProgramHeader`, which is that of ELF64. -/
def ProgramHeader.read (buf : Slice) (offset : Nat) : ProgramHeader where
  segType := buf.u32 offset
  flags := buf.u32 (offset + 4)
  off := buf.usize (offset + 8)
  vaddr := buf.usize (offset + 16)
  paddr := buf.usize (offset + 24)
  filesz := buf.usize (offset + 32)
  memsz := buf.usize (offset + 40)
  align := buf.usize (offset + 48)

def sizeOfProgramHeader : Nat := 56

def alignOfProgramHeader : Nat := 8

inductive ElfError where
  | badMagic
  | notRiscv
  | notExecutable
  | truncated
  deriving DecidableEq, Repr

def Slice.Aligned (buf : Slice) (align offset : Nat) : Prop := (buf.addr + offset) % align = 0

instance (buf : Slice) (align offset : Nat) : Decidable (buf.Aligned align offset) :=
  inferInstanceAs (Decidable (_ = _))

def checkedAdd (a b : Nat) : Option Nat := if a + b < 2 ^ 64 then some (a + b) else none

def Header.tableSize (hdr : Header) : Nat := hdr.phnum.toNat * hdr.phentsize.toNat

/-- `none` is the abort at a misaligned reference. -/
def parse (buf : Slice) : Option (Except ElfError Header) :=
  if buf.len < sizeOfHeader then some (.error .truncated)
  else if ¬ buf.Aligned alignOfHeader 0 then none
  else
    let hdr := Header.read buf
    if hdr.magic ≠ MAGIC then some (.error .badMagic)
    else if hdr.machine ≠ machineRiscv then some (.error .notRiscv)
    else if hdr.objType ≠ typeExec then some (.error .notExecutable)
    else
      match checkedAdd hdr.phoff.toNat hdr.tableSize with
      | none => some (.error .truncated)
      | some phEnd => if buf.len < phEnd then some (.error .truncated) else some (.ok hdr)

structure Entry where
  offset : Nat
  header : ProgramHeader
  deriving DecidableEq, Repr

def programHeaders (buf : Slice) (hdr : Header) : List (Option Entry) :=
  (List.range hdr.phnum.toNat).map fun i =>
    let offset := hdr.phoff.toNat + i * sizeOfProgramHeader
    if buf.Aligned alignOfProgramHeader offset then
      some ⟨offset, ProgramHeader.read buf offset⟩
    else none

theorem parse_eq_ok_iff {buf : Slice} {hdr : Header} :
    parse buf = some (.ok hdr) ↔
      hdr = Header.read buf ∧ sizeOfHeader ≤ buf.len ∧ buf.Aligned alignOfHeader 0 ∧
        hdr.magic = MAGIC ∧ hdr.machine = machineRiscv ∧ hdr.objType = typeExec ∧
        hdr.phoff.toNat + hdr.tableSize ≤ buf.len := by
  have short := buf.len_lt
  unfold parse checkedAdd
  constructor
  · intro accepted
    dsimp only at accepted
    split_ifs at accepted with small aligned magic machine objType noWrap
    · cases accepted
    · cases accepted
    · cases accepted
    · cases accepted
    · dsimp only at accepted
      split_ifs at accepted with past
      · cases accepted
      · cases accepted
        exact ⟨rfl, not_lt.mp small, aligned, not_not.mp magic, not_not.mp machine,
          not_not.mp objType, not_lt.mp past⟩
    · cases accepted
  · rintro ⟨rfl, large, aligned, magic, machine, objType, inside⟩
    have noWrap : (Header.read buf).phoff.toNat + (Header.read buf).tableSize < 2 ^ 64 := by omega
    simp only [not_lt.mpr large, aligned, magic, machine, objType, noWrap, not_lt.mpr inside,
      ↓reduceIte, ne_eq, not_true_eq_false]

def Header.entryOffset (hdr : Header) (i : Nat) : Nat := hdr.phoff.toNat + i * hdr.phentsize.toNat

/-- The walk yields the `phnum` entries of the table, each inside the image. -/
structure Walked (buf : Slice) (hdr : Header) : Prop where
  count : (programHeaders buf hdr).length = hdr.phnum.toNat
  entry : ∀ i < hdr.phnum.toNat, (programHeaders buf hdr)[i]? =
    some (some ⟨hdr.entryOffset i, ProgramHeader.read buf (hdr.entryOffset i)⟩)
  inside : ∀ i < hdr.phnum.toNat, hdr.entryOffset i + sizeOfProgramHeader ≤ buf.len

section Walk
variable {buf : Slice} {hdr : Header}

theorem programHeaders_length (buf : Slice) (hdr : Header) :
    (programHeaders buf hdr).length = hdr.phnum.toNat := by
  rw [programHeaders, List.length_map, List.length_range]

/-- The items lie a multiple of 8 bytes apart, so one is aligned exactly if `phoff` is. -/
theorem entry_aligned_iff (aligned : buf.Aligned alignOfHeader 0) (i : Nat) :
    buf.Aligned alignOfProgramHeader (hdr.phoff.toNat + i * sizeOfProgramHeader) ↔
      hdr.phoff.toNat % alignOfProgramHeader = 0 := by
  unfold Slice.Aligned alignOfHeader at aligned
  unfold Slice.Aligned alignOfProgramHeader sizeOfProgramHeader
  omega

theorem programHeaders_getElem? (aligned : buf.Aligned alignOfHeader 0) {i : Nat}
    (small : i < hdr.phnum.toNat) :
    (programHeaders buf hdr)[i]? =
      some (if hdr.phoff.toNat % alignOfProgramHeader = 0 then
        some ⟨hdr.phoff.toNat + i * sizeOfProgramHeader,
          ProgramHeader.read buf (hdr.phoff.toNat + i * sizeOfProgramHeader)⟩
      else none) := by
  rw [programHeaders, List.getElem?_map, List.getElem?_range small, Option.map_some]
  simp only [entry_aligned_iff aligned]

theorem Walked.of_offsets (aligned : buf.Aligned alignOfHeader 0)
    (phoff : hdr.phoff.toNat % alignOfProgramHeader = 0)
    (same : ∀ i < hdr.phnum.toNat,
      hdr.entryOffset i = hdr.phoff.toNat + i * sizeOfProgramHeader)
    (inside : ∀ i < hdr.phnum.toNat,
      hdr.phoff.toNat + i * sizeOfProgramHeader + sizeOfProgramHeader ≤ buf.len) :
    Walked buf hdr := by
  refine ⟨programHeaders_length buf hdr, fun i small => ?_, fun i small => ?_⟩
  · rw [same i small, programHeaders_getElem? aligned small, if_pos phoff]
  · rw [same i small]
    exact inside i small

/-- The walk of an accepted image is right exactly if it is empty, or if the table is aligned
and its entries have the size of `ProgramHeader`, or there is one and it ends inside the
image. -/
theorem program_headers_walked_iff (buf : Slice) (hdr : Header)
    (accepted : parse buf = some (.ok hdr)) :
    Walked buf hdr ↔
      hdr.phnum = 0 ∨ hdr.phoff.toNat % alignOfProgramHeader = 0 ∧
        (hdr.phentsize.toNat = sizeOfProgramHeader ∨
          hdr.phnum = 1 ∧ hdr.phoff.toNat + sizeOfProgramHeader ≤ buf.len) := by
  obtain ⟨_, _, aligned, _, _, _, fits⟩ := parse_eq_ok_iff.mp accepted
  constructor
  · intro walked
    by_cases none : hdr.phnum = 0
    · exact .inl none
    have positive : 0 < hdr.phnum.toNat := by
      rw [Nat.pos_iff_ne_zero]
      exact fun zero => none (BitVec.eq_of_toNat_eq zero)
    have phoff : hdr.phoff.toNat % alignOfProgramHeader = 0 := by
      by_contra misaligned
      have entry := walked.entry 0 positive
      rw [programHeaders_getElem? aligned positive, if_neg misaligned] at entry
      cases entry
    refine .inr ⟨phoff, ?_⟩
    by_cases size : hdr.phentsize.toNat = sizeOfProgramHeader
    · exact .inl size
    have single : hdr.phnum.toNat = 1 := by
      by_contra several
      have second : 1 < hdr.phnum.toNat := by omega
      have entry := walked.entry 1 second
      rw [programHeaders_getElem? aligned second, if_pos phoff, Option.some.injEq,
        Option.some.injEq, Entry.mk.injEq, Header.entryOffset] at entry
      omega
    have inside := walked.inside 0 positive
    rw [Header.entryOffset, Nat.zero_mul, Nat.add_zero] at inside
    exact .inr ⟨BitVec.eq_of_toNat_eq single, inside⟩
  · rintro (none | ⟨phoff, size | ⟨single, inside⟩⟩)
    · have empty : ∀ i, ¬ i < hdr.phnum.toNat := by
        intro i small
        rw [none] at small
        exact absurd small (Nat.not_lt_zero i)
      exact ⟨programHeaders_length buf hdr, fun i small => absurd small (empty i),
        fun i small => absurd small (empty i)⟩
    · apply Walked.of_offsets aligned phoff
      · intro i small
        rw [Header.entryOffset, size]
      · intro i small
        rw [Header.tableSize, size] at fits
        calc hdr.phoff.toNat + i * sizeOfProgramHeader + sizeOfProgramHeader
            = hdr.phoff.toNat + (i + 1) * sizeOfProgramHeader := by ring
          _ ≤ hdr.phoff.toNat + hdr.phnum.toNat * sizeOfProgramHeader :=
            Nat.add_le_add_left (Nat.mul_le_mul_right _ small) _
          _ ≤ buf.len := fits
    · have first : ∀ i, i < hdr.phnum.toNat → i = 0 := by
        intro i small
        rw [single] at small
        exact Nat.lt_one_iff.mp small
      apply Walked.of_offsets aligned phoff
      · intro i small
        rw [first i small, Header.entryOffset, Nat.zero_mul, Nat.zero_mul]
      · intro i small
        rw [first i small, Nat.zero_mul, Nat.add_zero]
        exact inside

end Walk

/-- An image at a page's start with its table at `phoff`: `phnum` entries of `phentsize`
bytes, each beginning with `p_type = PT_LOAD`. -/
def image (len phoff phentsize phnum : Nat) (short : len < 2 ^ 63) : Slice where
  addr := 0x80400000
  bytes := fun k =>
    if k < 64 then
      ([0x7f, 0x45, 0x4c, 0x46, 2, 1, 1, 0, 0, 0, 0, 0, 0, 0, 0, 0, 2, 0, 0xf3, 0, 1, 0, 0, 0,
        0, 0, 0, 0, 0, 0, 0, 0, BitVec.ofNat 8 phoff, 0, 0, 0, 0, 0, 0, 0, 0, 0, 0, 0, 0, 0, 0,
        0, 0, 0, 0, 0, 64, 0, BitVec.ofNat 8 phentsize, 0, BitVec.ofNat 8 phnum, 0, 0, 0, 0, 0,
        0, 0]).getD k 0
    else if phoff ≤ k ∧ (k - phoff) % phentsize = 0 then 1 else 0
  len := len
  len_lt := short

def oneSegment : Slice := image 120 64 56 1 (by norm_num)

theorem program_headers_walked_iff_one_segment :
    ∃ hdr, parse oneSegment = some (.ok hdr) ∧ Walked oneSegment hdr := by
  have accepted : parse oneSegment = some (.ok (Header.read oneSegment)) :=
    parse_eq_ok_iff.mpr ⟨rfl, by decide +kernel⟩
  exact ⟨_, accepted, (program_headers_walked_iff _ _ accepted).mpr
    (.inr ⟨by decide +kernel, .inl (by decide +kernel)⟩)⟩

def paddedSegments : Slice := image 192 64 64 2 (by norm_num)

def bareHeader : Slice := image 64 64 0 1 (by norm_num)

def shiftedSegment : Slice := image 121 65 56 1 (by norm_num)

/-- The second of the padded `PT_LOAD` headers is read 8 bytes too early, as one of type 0;
the bare header is accepted and read past its end; the shifted entry is not read at all. -/
theorem second_segment_misread :
    (∃ hdr, parse paddedSegments = some (.ok hdr) ∧
      ((programHeaders paddedSegments hdr).map (Option.map fun e => e.header.segType)) =
        [some 1, some 0] ∧
      (ProgramHeader.read paddedSegments (hdr.entryOffset 1)).segType = 1 ∧
      ¬ Walked paddedSegments hdr) ∧
    (∃ hdr, parse bareHeader = some (.ok hdr) ∧
      ((programHeaders bareHeader hdr).map (Option.map Entry.offset)) = [some bareHeader.len] ∧
      ¬ Walked bareHeader hdr) ∧
    ∃ hdr, parse shiftedSegment = some (.ok hdr) ∧ programHeaders shiftedSegment hdr = [none] ∧
      ¬ Walked shiftedSegment hdr := by
  refine ⟨?_, ?_, ?_⟩
  · refine ⟨Header.read paddedSegments, parse_eq_ok_iff.mpr ⟨rfl, by decide +kernel⟩,
      by decide +kernel, by decide +kernel, fun walked => ?_⟩
    have entry := walked.entry 1 (by decide +kernel)
    revert entry
    decide +kernel
  · refine ⟨Header.read bareHeader, parse_eq_ok_iff.mpr ⟨rfl, by decide +kernel⟩,
      by decide +kernel, fun walked => ?_⟩
    have inside := walked.inside 0 (by decide +kernel)
    revert inside
    decide +kernel
  · refine ⟨Header.read shiftedSegment, parse_eq_ok_iff.mpr ⟨rfl, by decide +kernel⟩,
      by decide +kernel, fun walked => ?_⟩
    have entry := walked.entry 0 (by decide +kernel)
    revert entry
    decide +kernel

end Vesper.Exec.Elf
