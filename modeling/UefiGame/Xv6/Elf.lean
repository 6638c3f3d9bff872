import UefiGame.Firmware.Types
import UefiGame.Library.PackedRecord

/-! # ELF32 files in memory

The loader casts the file buffer to `elfhdr` and the bytes at `phoff` to an
array of `proghdr`. Both are read field by field from memory at their offsets.
Addresses are natural numbers: sums of 32-bit fields and the address of a file
in memory do not wrap in 64 bits.
-/

namespace UefiGame

/-- Physical memory, by address. -/
abbrev Memory := ℕ → UINT8

inductive ElfField where
  | magic
  | elf
  | type
  | machine
  | version
  | entry
  | phoff
  | shoff
  | flags
  | ehsize
  | phentsize
  | phnum
  | shentsize
  | shnum
  | shstrndx
  deriving DecidableEq, Repr

/-- `struct elfhdr`. -/
def elfHdrLayout : List (ElfField × ℕ) :=
  [(.magic, 4), (.elf, 12), (.type, 2), (.machine, 2), (.version, 4), (.entry, 4), (.phoff, 4),
    (.shoff, 4), (.flags, 4), (.ehsize, 2), (.phentsize, 2), (.phnum, 2), (.shentsize, 2),
    (.shnum, 2), (.shstrndx, 2)]

inductive ProgField where
  | type
  | off
  | vaddr
  | paddr
  | filesz
  | memsz
  | flags
  | align
  deriving DecidableEq, Repr

/-- `struct proghdr`. -/
def progHdrLayout : List (ProgField × ℕ) :=
  [(.type, 4), (.off, 4), (.vaddr, 4), (.paddr, 4), (.filesz, 4), (.memsz, 4), (.flags, 4),
    (.align, 4)]

/-- A program header. -/
structure ProgHdr where
  type : UINT32
  off : UINT32
  vaddr : UINT32
  paddr : UINT32
  filesz : UINT32
  memsz : UINT32
  flags : UINT32
  align : UINT32
  deriving DecidableEq, Repr

/-- The program header at address `a`. -/
def progHdrAt (m : Memory) (a : ℕ) : ProgHdr :=
  let field k := BitVec.ofNat 32 (PackedRecord.read progHdrLayout m a k)
  { type := field .type
    off := field .off
    vaddr := field .vaddr
    paddr := field .paddr
    filesz := field .filesz
    memsz := field .memsz
    flags := field .flags
    align := field .align }

/-- `elf->phoff`, for the file at `buffer`. -/
def phoff (m : Memory) (buffer : ℕ) : ℕ := PackedRecord.read elfHdrLayout m buffer .phoff

/-- `elf->phnum`. -/
def phnum (m : Memory) (buffer : ℕ) : ℕ := PackedRecord.read elfHdrLayout m buffer .phnum

/-- The address `ph + i` of header number `i`. -/
def phAddr (m : Memory) (buffer i : ℕ) : ℕ :=
  buffer + phoff m buffer + PackedRecord.size progHdrLayout * i

/-- Header number `i` of the table of the file at `buffer`. -/
def progHdr (m : Memory) (buffer i : ℕ) : ProgHdr := progHdrAt m (phAddr m buffer i)

/-- The whole program header table. -/
def progHdrs (m : Memory) (buffer : ℕ) : List ProgHdr :=
  (List.range (phnum m buffer)).map (progHdr m buffer)

/-- `ph->type == 1`, a loadable segment. -/
def ProgHdr.IsLoad (ph : ProgHdr) : Prop := ph.type = 1

instance (ph : ProgHdr) : Decidable ph.IsLoad := inferInstanceAs (Decidable (_ = _))

/-- How many bytes the second loop writes from `paddr` on: it copies all `filesz` bytes, also when
`memsz` is smaller, and zeroes up to `memsz`. -/
def ProgHdr.extent (ph : ProgHdr) : ℕ := max ph.filesz.toNat ph.memsz.toNat

theorem progHdrAt_congr {m m' : Memory} {a : ℕ}
    (h : ∀ b ∈ LinearMemory.block a (PackedRecord.size progHdrLayout), m b = m' b) :
    progHdrAt m a = progHdrAt m' a := by
  have hfield : ∀ k, PackedRecord.read progHdrLayout m a k =
      PackedRecord.read progHdrLayout m' a k :=
    fun k => PackedRecord.read_congr a (by cases k <;> decide) h
  simp only [progHdrAt, hfield]

/-- Memory that holds only the bytes `bs` at `base`. -/
def memoryOf (base : ℕ) (bs : List UINT8) : Memory := fun a =>
  if a < base then 0 else bs[a - base]?.getD 0

/-- An ELF file with its program headers right behind the ELF header. -/
def elfFile (phs : List (ProgField → ℕ)) (content : List UINT8) : List UINT8 :=
  PackedRecord.encode elfHdrLayout
      (fun | .phoff => PackedRecord.size elfHdrLayout | .phnum => phs.length | _ => 0) ++
    phs.flatMap (PackedRecord.encode progHdrLayout) ++ content

/-- A header of the given type for `filesz` bytes at `off`, loaded to `memsz` bytes at `paddr`. -/
def hdrFields (type off paddr filesz memsz : ℕ) : ProgField → ℕ
  | .type => type
  | .off => off
  | .paddr => paddr
  | .filesz => filesz
  | .memsz => memsz
  | .align => 4096
  | _ => 0

end UefiGame
