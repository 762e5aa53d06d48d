import QPlusWeb.RedBlackTree
import QPlusWeb.KeyedIndex
import QPlusWeb.Ranges
import Mathlib.Order.Lattice.Nat

/-!
# The allocator of executable memory

`MetaAllocator.cpp`: memory is handed out best fit from free-space nodes, which
are kept in a tree by size and in two maps by start and end address. Handles can
be shrunk and released, and what comes free is joined with its neighbours. A map
counts the handles on every page, so that pages are committed while they are in use.

Addresses and sizes are natural numbers; an argument of a caller can be so large
that a sum wraps around, and there the sum is taken modulo the size of the address
space. A null pointer is 0. The nodes that `fastMalloc` returns and the answers
of `allocateNewSpace` are arguments. As in the tree, no result means a failed
assertion, a crash, an invalid pointer or too little fuel.
-/
namespace QPlusWeb.MetaAllocation

open RedBlack Ranges KeyedIndex

/-- The size of the address space; `size_t` and `uintptr_t` are below it. -/
def addressSpace : ℕ := 2 ^ 64

/-- What the constructor fixes, and whether assertions are compiled in. -/
structure Build where
  logAllocationGranule : ℕ
  logPageSize : ℕ
  granule_lt : logAllocationGranule < 32
  page_lt : logPageSize < 32
  asserts : Bool

namespace Build

def allocationGranule (b : Build) : ℕ := 2 ^ b.logAllocationGranule

def pageSize (b : Build) : ℕ := 2 ^ b.logPageSize

def assert (b : Build) (p : Prop) [Decidable p] : Option Unit :=
  if b.asserts = true ∧ ¬p then none else some ()

theorem assert_of {b : Build} {p : Prop} [Decidable p] (h : p) : b.assert p = some () := by
  simp [assert,h]

/-- `x & ~(2^log - 1)` -/
def alignDown (log x : ℕ) : ℕ := x >>> log <<< log

def roundUp (b : Build) (sizeInBytes : ℕ) : Option ℕ :=
  if addressSpace - 1 - b.allocationGranule ≤ sizeInBytes then none
  else some (alignDown b.logAllocationGranule (sizeInBytes + b.allocationGranule - 1))

end Build

/-! ### Free space -/

/-- The free-space nodes and the three indexes of them. A node holds a range. -/
structure FreeSpace where
  sizeMap : RedBlackTree ℕ
  startAddressMap : ℕ → Option ℕ
  endAddressMap : ℕ → Option ℕ
  node : ℕ → Range

namespace FreeSpace

variable (s : FreeSpace)

def key (i : ℕ) : ℕ := (s.node i).size

def setNode (i : ℕ) (r : Range) : FreeSpace :=
  { s with node := Function.update s.node i r }

def sizeMapRemove (fuel i : ℕ) : Option FreeSpace := do
  let r ← s.sizeMap.remove fuel i
  some { s with sizeMap := r.2 }

def sizeMapInsert (fuel i : ℕ) : Option FreeSpace := do
  let t ← s.sizeMap.insert s.key fuel i
  some { s with sizeMap := t }

def startRemove (a : ℕ) : FreeSpace :=
  { s with startAddressMap := remove s.startAddressMap a }

def startAdd (a i : ℕ) : FreeSpace :=
  { s with startAddressMap := add s.startAddressMap a i }

def endRemove (a : ℕ) : FreeSpace :=
  { s with endAddressMap := remove s.endAddressMap a }

def endAdd (a i : ℕ) : FreeSpace :=
  { s with endAddressMap := add s.endAddressMap a i }

/-- Whether the left end of a range straddles no more pages than the right end. -/
def prefersLeft (b : Build) (r : Range) (sizeInBytes : ℕ) : Bool :=
  let firstPage := r.start >>> b.logPageSize
  let lastPage := (r.start + r.size - 1) >>> b.logPageSize
  let lastPageForLeftAllocation := (r.start + sizeInBytes - 1) >>> b.logPageSize
  let firstPageForRightAllocation := (r.start + r.size - sizeInBytes) >>> b.logPageSize
  decide (lastPageForLeftAllocation - firstPage + 1 ≤ lastPage - firstPageForRightAllocation + 1)

/-- `findAndRemoveFreeSpace`: the start of the space found, or null. -/
def findAndRemoveFreeSpace (b : Build) (s : FreeSpace) (fuel sizeInBytes : ℕ) :
    Option (ℕ × FreeSpace) := do
  match ← s.sizeMap.findLeastGreaterThanOrEqual s.key fuel sizeInBytes with
  | none => some (0, s)
  | some i =>
    let r := s.node i
    b.assert (r.size ≥ sizeInBytes)
    let s ← s.sizeMapRemove fuel i
    if r.size = sizeInBytes then
      some (r.start, (s.startRemove r.start).endRemove (r.start + r.size))
    else if prefersLeft b r sizeInBytes then
      let s := s.startRemove r.start
      let s := s.setNode i ⟨r.start + sizeInBytes, r.size - sizeInBytes⟩
      let s ← s.sizeMapInsert fuel i
      some (r.start, s.startAdd (r.start + sizeInBytes) i)
    else
      let result := r.start + r.size - sizeInBytes
      let s := s.endRemove (r.start + r.size)
      let s := s.setNode i ⟨r.start, r.size - sizeInBytes⟩
      let s ← s.sizeMapInsert fuel i
      some (result, s.endAdd result i)

/-- `addFreeSpace`; `fresh` is the node that a new one would be. -/
def addFreeSpace (b : Build) (s : FreeSpace) (fuel start sizeInBytes fresh : ℕ) :
    Option FreeSpace :=
  let stop := start + sizeInBytes
  match s.endAddressMap start, s.startAddressMap stop with
  | some left, some right => do
    let leftRange := s.node left
    b.assert (leftRange.stop = start)
    let s ← s.sizeMapRemove fuel left
    let s := s.endRemove leftRange.stop
    let rightSize := (s.node right).size
    b.assert ((s.node right).start = stop)
    b.assert (leftRange.start + leftRange.size + sizeInBytes + rightSize = stop + rightSize)
    let s ← s.sizeMapRemove fuel right
    let s := s.startRemove stop
    let s := s.endRemove (stop + rightSize)
    let s := s.setNode left ⟨leftRange.start, leftRange.size + (sizeInBytes + rightSize)⟩
    let s ← s.sizeMapInsert fuel left
    some (s.endAdd (stop + rightSize) left)
  | some left, none => do
    let leftRange := s.node left
    b.assert (leftRange.stop = start)
    let s ← s.sizeMapRemove fuel left
    let s := s.endRemove leftRange.stop
    let s := s.setNode left ⟨leftRange.start, leftRange.size + sizeInBytes⟩
    let s ← s.sizeMapInsert fuel left
    some (s.endAdd stop left)
  | none, some right => do
    let rightSize := (s.node right).size
    b.assert (start + sizeInBytes + rightSize = stop + rightSize)
    let s ← s.sizeMapRemove fuel right
    let s := s.startRemove stop
    let s := s.setNode right ⟨start, rightSize + sizeInBytes⟩
    let s ← s.sizeMapInsert fuel right
    some (s.startAdd start right)
  | none, none => do
    let s := s.setNode fresh ⟨start, sizeInBytes⟩
    let s ← s.sizeMapInsert fuel fresh
    some ((s.startAdd start fresh).endAdd stop fresh)

end FreeSpace

/-! ### Pages in use -/

inductive PageCall where
  | notifyNeedPage (page : ℕ)
  | notifyPageIsFree (page : ℕ)
  deriving DecidableEq, Repr

/-- The page map, the committed bytes and the calls about pages made so far. -/
structure Pages where
  occupancyMap : ℕ → Option ℕ
  bytesCommitted : ℕ
  calls : List PageCall

namespace Pages

variable (b : Build)

def incrementPage (s : Pages) (page : ℕ) : Pages :=
  match s.occupancyMap page with
  | none =>
    ⟨Function.update s.occupancyMap page (some 1), s.bytesCommitted + b.pageSize,
      s.calls ++ [.notifyNeedPage (page <<< b.logPageSize)]⟩
  | some n => { s with occupancyMap := Function.update s.occupancyMap page (some (n + 1)) }

/-- The page that is looked up is asserted to be there. -/
def decrementPage (s : Pages) (page : ℕ) : Option Pages := do
  let n ← s.occupancyMap page
  if n - 1 = 0 then
    some ⟨Function.update s.occupancyMap page none, s.bytesCommitted - b.pageSize,
      s.calls ++ [.notifyPageIsFree (page <<< b.logPageSize)]⟩
  else some { s with occupancyMap := Function.update s.occupancyMap page (some (n - 1)) }

/-- The pages from the first to the last address of a range. -/
def touched (address sizeInBytes : ℕ) : List ℕ :=
  let firstPage := address >>> b.logPageSize
  let lastPage := ((address + sizeInBytes - 1) % addressSpace) >>> b.logPageSize
  List.range' firstPage (lastPage + 1 - firstPage)

def incrementPageOccupancy (s : Pages) (address sizeInBytes : ℕ) : Pages :=
  (touched b address sizeInBytes).foldl (incrementPage b) s

def decrementPageOccupancy (s : Pages) (address sizeInBytes : ℕ) : Option Pages :=
  (touched b address sizeInBytes).foldlM (decrementPage b) s

end Pages

/-! ### The allocator -/

/-- The allocator, with the memory it was given and the numbers of pages it has
asked `allocateNewSpace` for. -/
structure MetaAllocator where
  free : FreeSpace
  pages : Pages
  bytesAllocated : ℕ
  bytesReserved : ℕ
  reserved : List Range
  requests : List ℕ

/-- The start and the size that a handle keeps. -/
abbrev MetaAllocatorHandle := Range

namespace MetaAllocator

variable (b : Build) (s : MetaAllocator)

def addFreeSpaceFromReleasedHandle (fuel start sizeInBytes fresh : ℕ) : Option MetaAllocator := do
  let free ← s.free.addFreeSpace b fuel start sizeInBytes fresh
  some { s with free := free, bytesAllocated := s.bytesAllocated - sizeInBytes }

def addFreshFreeSpace (fuel start sizeInBytes fresh : ℕ) : Option MetaAllocator := do
  let free ← s.free.addFreeSpace b fuel start sizeInBytes fresh
  some { s with free := free, bytesReserved := s.bytesReserved + sizeInBytes
                reserved := ⟨start, sizeInBytes⟩ :: s.reserved }

/-- The end of `allocate`: the space found becomes a handle. -/
def makeHandle (start sizeInBytes : ℕ) : Option (MetaAllocatorHandle × MetaAllocator) := do
  let pages := s.pages.incrementPageOccupancy b start sizeInBytes
  b.assert (start ≠ 0)
  b.assert (sizeInBytes ≠ 0)
  some (⟨start, sizeInBytes⟩,
    { s with pages := pages, bytesAllocated := s.bytesAllocated + sizeInBytes })

/-- The number of pages that `allocate` asks for. -/
def requestedNumberOfPages (sizeInBytes : ℕ) : ℕ :=
  ((sizeInBytes + b.pageSize - 1) % addressSpace) >>> b.logPageSize

/-- The part of `allocate` that uses new space of `numberOfPages` pages. -/
def reserveSpace (fuel start numberOfPages sizeInBytes fresh : ℕ) : Option MetaAllocator := do
  b.assert (numberOfPages ≥ requestedNumberOfPages b sizeInBytes)
  let roundedUpSize := numberOfPages <<< b.logPageSize
  b.assert (roundedUpSize ≥ sizeInBytes)
  let s := { s with bytesReserved := s.bytesReserved + roundedUpSize
                    reserved := ⟨start, roundedUpSize⟩ :: s.reserved }
  if roundedUpSize > sizeInBytes then do
    let free ← s.free.addFreeSpace b fuel (start + sizeInBytes) (roundedUpSize - sizeInBytes) fresh
    some { s with free := free }
  else some s

/-- `allocate`: a handle, or null. `newSpace` answers the calls of `allocateNewSpace`. -/
def allocate (newSpace : ℕ → Option (ℕ × ℕ))
    (fuel sizeInBytes fresh : ℕ) : Option (Option MetaAllocatorHandle × MetaAllocator) :=
  if sizeInBytes = 0 then some (none, s)
  else do
    let sizeInBytes ← b.roundUp sizeInBytes
    let r ← s.free.findAndRemoveFreeSpace b fuel sizeInBytes
    let s := { s with free := r.2 }
    if r.1 = 0 then
      let requested := requestedNumberOfPages b sizeInBytes
      let s := { s with requests := s.requests ++ [requested] }
      match newSpace requested with
      | none => some (none, s)
      | some (start, numberOfPages) =>
        let s ← s.reserveSpace b fuel start numberOfPages sizeInBytes fresh
        let h ← s.makeHandle b start sizeInBytes
        some (some h.1, h.2)
    else
      let h ← s.makeHandle b r.1 sizeInBytes
      some (some h.1, h.2)

/-- `release`, which the destructor of a handle calls. -/
def release (fuel : ℕ) (h : MetaAllocatorHandle) (fresh : ℕ) : Option MetaAllocator :=
  if h.size ≠ 0 then do
    let pages ← s.pages.decrementPageOccupancy b h.start h.size
    ({ s with pages := pages }).addFreeSpaceFromReleasedHandle b fuel h.start h.size fresh
  else some s

/-- The first page behind the space that a shrunken handle keeps. -/
def firstCompletelyFreePage (freeStart : ℕ) : ℕ :=
  Build.alignDown b.logPageSize ((freeStart + b.pageSize - 1) % addressSpace)

/-- The pages that lie completely in the space that a shrunken handle gives up. -/
def decrementFreePages (s : Pages) (freeStart freeSize : ℕ) : Option Pages :=
  let first := firstCompletelyFreePage b freeStart
  if first < freeStart + freeSize then
    s.decrementPageOccupancy b first (freeSize - (first - freeStart))
  else some s

/-- `MetaAllocatorHandle::shrink` -/
def shrink (fuel : ℕ) (h : MetaAllocatorHandle)
    (newSizeInBytes fresh : ℕ) : Option (MetaAllocatorHandle × MetaAllocator) := do
  b.assert (newSizeInBytes ≤ h.size)
  let newSizeInBytes ← b.roundUp newSizeInBytes
  b.assert (newSizeInBytes ≤ h.size)
  if newSizeInBytes = h.size then some (h, s)
  else
    let freeStart := h.start + newSizeInBytes
    let freeSize := h.size - newSizeInBytes
    let pages ← decrementFreePages b s.pages freeStart freeSize
    let s ← ({ s with pages := pages }).addFreeSpaceFromReleasedHandle b fuel freeStart freeSize fresh
    some (⟨h.start, newSizeInBytes⟩, s)

end MetaAllocator

end QPlusWeb.MetaAllocation
