/-
  Cs330.Memory.PageList — the physical page allocator (memory.c): a region's page list,
  its bitmap in the first pages of the region, and a scan that starts at the word it last
  found a free page in.

  `mem` is the region's memory in words, from start_address on: the bitmap is its start.
  A pool is a page list with the frames handed out and not taken back. What set_pfn_info
  and reset_pfn_info keep, and the counter in stats, no allocation reads.
-/
import Cs330.Lib.Bitmap
import Cs330.Lib.CInt
import Cs330.Lib.Machine

namespace Cs330.Memory

open Lib Lib.CInt Lib.Bitmap Function

def PAGE_SHIFT : Nat := 12
def PAGE_SIZE : Nat := 4096

inductive RegionType where
  | OS_DS_REG
  | OS_PT_REG
  | USER_REG
  deriving DecidableEq, Repr

structure PageList where
  type : RegionType
  size : Nat
  freePages : Nat
  lastFreePos : Nat
  startAddress : Nat
  mem : Words

/-! ## Bits (lib.h) -/

def setBit (x : BitVec 32) (pos : Nat) : BitVec 32 := x ||| (1#32 <<< pos)
def clearBit (x : BitVec 32) (pos : Nat) : BitVec 32 := x ^^^ (((x >>> pos) &&& 1#32) <<< pos)
def isSet (x : BitVec 32) (pos : Nat) : Bool := (x >>> pos) &&& 1#32 != 0#32

namespace PageList

def bmapSet (pgl : PageList) (i : Nat) : PageList :=
  let lword := i >>> 5
  { pgl with mem := update pgl.mem lword (setBit (pgl.mem lword) (i - lword <<< 5)) }

def bmapClear (pgl : PageList) (i : Nat) : PageList :=
  let lword := i >>> 5
  { pgl with mem := update pgl.mem lword (clearBit (pgl.mem lword) (i - lword <<< 5)) }

/-! ## init_pagelist -/

/-- The pages the bitmap takes. -/
def pagesToReserve (size : Nat) : Nat :=
  let pages := size >>> 3
  if (pages >>> PAGE_SHIFT) <<< PAGE_SHIFT = pages then pages >>> PAGE_SHIFT else pages >>> PAGE_SHIFT + 1

def initPagelist (type : RegionType) (start limit : Nat) (mem : Words) : PageList :=
  let size := u32 (((limit - start) >>> PAGE_SHIFT : Nat) : Int)
  let pages := pagesToReserve size
  let pgl := (List.range pages).foldl bmapSet ⟨type, size, 0, pages >>> 5, start, mem⟩
  { pgl with freePages := u32 ((size : Int) - pages) }

/-! ## os_pfn_alloc -/

/-- `while(*scanner == 0xffffffff && pgl->last_free_pos < size_in_u32)`, with a step left
    for every word before `bound`. -/
def skipFull (mem : Words) (bound : Nat) : Nat → Nat → Nat
  | 0, pos => pos
  | fuel + 1, pos => if mem pos = 0xffffffff#32 ∧ pos < bound then skipFull mem bound fuel (pos + 1) else pos

/-- `for(bit=0; bit<32; ++bit) if(!is_set(*scanner, bit)) break;` -/
def firstClear (x : BitVec 32) : Nat := ((List.range 32).find? fun bit => !isSet x bit).getD 32

def getFreePage (pgl : PageList) : Nat × PageList :=
  let sizeInU32 := pgl.size >>> 8
  let pos := skipFull pgl.mem sizeInU32 (sizeInU32 - pgl.lastFreePos) pgl.lastFreePos
  let pos := if sizeInU32 ≤ pos then 0 else pos
  let pfn := u32 (((pos <<< 5 : Nat) : Int) + firstClear (pgl.mem pos))
  (u32 ((pfn : Int) + (pgl.startAddress >>> PAGE_SHIFT : Nat)),
    { pgl.bmapSet pfn with lastFreePos := pos, freePages := u32 ((pgl.freePages : Int) - 1) })

/-- `bzero((char *)addr, PAGE_SIZE)` -/
def bzeroPage (pgl : PageList) (addr : Nat) : PageList :=
  { pgl with mem := fun w => if addr ≤ pgl.startAddress + 4 * w ∧ pgl.startAddress + 4 * w < addr + PAGE_SIZE then 0
      else pgl.mem w }

def osPfnAlloc (pgl : PageList) : Nat × PageList :=
  if pgl.freePages = 0 then (0, pgl)
  else
    let r := pgl.getFreePage
    if r.2.type = .OS_PT_REG then (r.1, r.2.bzeroPage (r.1 <<< PAGE_SHIFT)) else r

/-! ## os_pfn_free -/

def osPageFree (pgl : PageList) (paddress : Nat) : PageList :=
  let pfn := u32 ((u64 ((paddress : Int) - pgl.startAddress) >>> PAGE_SHIFT : Nat) : Int)
  if paddress ≤ pgl.startAddress ∨ pgl.startAddress + u32 ((pgl.size <<< 12 : Nat) : Int) ≤ paddress then pgl
  else { pgl.bmapClear pfn with freePages := u32 ((pgl.freePages : Int) + 1) }

def osPfnFree (pgl : PageList) (pfn : Nat) : PageList := pgl.osPageFree (pfn <<< PAGE_SHIFT)

end PageList

/-- The frames of a region: a multiple of 256 of them, all with a number in u32. -/
structure Region where
  type : RegionType
  base : Nat
  size : Nat
  pos : 0 < size
  whole : size % 256 = 0
  fits : base + size < 2 ^ 32

/-- A page list, and the frames it has handed out and not been given back. -/
structure Pool where
  list : PageList
  allocated : Finset Nat

inductive PoolEv where
  | alloc
  | free (pfn : Nat)

namespace Pool

/-- An allocation with no free pages hands out nothing. -/
def step (p : Pool) : PoolEv → Option Pool
  | .alloc => some ⟨p.list.osPfnAlloc.2, if p.list.freePages = 0 then p.allocated else insert p.list.osPfnAlloc.1 p.allocated⟩
  | .free pfn => some ⟨p.list.osPfnFree pfn, p.allocated.erase pfn⟩

/-- init_pagelist on zeroed memory. -/
def Start (R : Region) (p : Pool) : Prop :=
  p = ⟨PageList.initPagelist R.type (R.base <<< PAGE_SHIFT) ((R.base + R.size) <<< PAGE_SHIFT) fun _ => 0, ∅⟩

def machine (R : Region) : Machine Pool PoolEv := ⟨Start R, step⟩

/-- Only what is allocated is freed. -/
def Frees (p : Pool) : PoolEv → Prop
  | .alloc => True
  | .free pfn => pfn ∈ p.allocated

end Pool

end Cs330.Memory
