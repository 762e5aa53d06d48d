import QPlusWeb.BitSmearing
import QPlusWeb.HashTableOperations
import QPlusWeb.Runs
import QPlusWeb.VisitedLinkTable

/-!
# The provider of visited links

`VisitedLinkProvider` collects the hashes of visited links in a set and moves them, when its timer
fires, to the table that it shares with the web processes.  If the table gets too small it is replaced
by a larger one.  Creating the shared memory and its handles may fail.
-/

namespace QPlusWeb.VisitedLinks

open ProbeSequence WTF

/-! ### The size of the table -/

def nextPowerOf2 (v : UInt32) : UInt32 :=
  let v := v - 1
  let v := v ||| v >>> 1
  let v := v ||| v >>> 2
  let v := v ||| v >>> 4
  let v := v ||| v >>> 8
  let v := v ||| v >>> 16
  v + 1

def visitedLinkTableMaxLoad : UInt32 := 2

/-- `SharedMemory::systemPageSize()` is `2 ^ exponent` bytes, with room for one hash at least. -/
structure PageSize where
  exponent : ℕ
  three_le : 3 ≤ exponent
  lt_32 : exponent < 32

/-- The number of hashes in a page. -/
def PageSize.minimumTableSize (page : PageSize) : UInt32 := UInt32.ofNat (2 ^ page.exponent / 8)

def tableSizeForKeyCount (page : PageSize) (keyCount : UInt32) : UInt32 :=
  let tableSize := nextPowerOf2 (keyCount * visitedLinkTableMaxLoad)
  if tableSize < page.minimumTableSize then page.minimumTableSize else tableSize

/-! ### The provider -/

/-- The traits of `HashSet<LinkHash, LinkHashHash>`: zero is the empty value, the largest number the
deleted one. -/
def linkHashTraits : HashTraits LinkHash LinkHash where
  extract := id
  hash := LinkHash.unsignedHash
  equal := fun a b => a == b
  safeToCompareToEmptyOrDeleted := true
  isEmptyValue := (· == 0)
  isDeletedValue := (· == -1)
  emptyValue := 0
  deletedValue := -1
  minimumTableSize := 8

inductive ProcessMessage where
  | setVisitedLinkTable
  | visitedLinkStateChanged (linkHashes : List LinkHash)
  | allVisitedLinkStateChanged
  deriving DecidableEq

/-- The timer is active or not, as it is always started with no delay.  The last three fields are
records of the links that have been added, of the messages that have been sent and of a hash that was
found in the new table while it was copied. -/
structure VisitedLinkProvider (κ : Type*) where
  visitedLinksPopulated : Bool
  processesWithVisitedLinkState : List κ
  processesWithoutVisitedLinkState : List κ
  keyCount : UInt32
  tableSize : UInt32
  table : VisitedLinkTable
  pendingVisitedLinks : HashTable LinkHash
  timerIsActive : Bool
  added : List LinkHash
  sent : List (κ × ProcessMessage)
  foundDuplicate : Bool

/-- What the shared memory allows when the timer fires. -/
structure MemoryOutcome (κ : Type*) where
  createsMemory : Bool
  createsHandle : κ → Bool

namespace VisitedLinkProvider

variable {κ : Type*} [DecidableEq κ]

def create : VisitedLinkProvider κ where
  visitedLinksPopulated := false
  processesWithVisitedLinkState := []
  processesWithoutVisitedLinkState := []
  keyCount := 0
  tableSize := 0
  table := .create
  pendingVisitedLinks := .init
  timerIsActive := false
  added := []
  sent := []
  foundDuplicate := false

variable (s : VisitedLinkProvider κ)

/-- The links that `populateVisitedLinks` adds come as calls of `addVisitedLink`. -/
def processDidFinishLaunching (process : κ) : VisitedLinkProvider κ :=
  { s with
    processesWithoutVisitedLinkState := s.processesWithoutVisitedLinkState.insert process
    timerIsActive := s.timerIsActive || s.keyCount ≠ 0
    visitedLinksPopulated := true }

def addVisitedLink (linkHash : LinkHash) : Option (VisitedLinkProvider κ) :=
  (s.pendingVisitedLinks.add linkHashTraits (HashTable.identity linkHashTraits linkHash)).map fun r =>
    { s with
      pendingVisitedLinks := r.table
      timerIsActive := true
      added := s.added ++ [linkHash] }

def processDidClose (process : κ) : VisitedLinkProvider κ :=
  { s with
    processesWithVisitedLinkState := s.processesWithVisitedLinkState.erase process
    processesWithoutVisitedLinkState := s.processesWithoutVisitedLinkState.erase process }

/-- Adds the hashes one after another; returns also those that were not there. -/
def addLinkHashes : VisitedLinkTable → List LinkHash → Option (VisitedLinkTable × List LinkHash)
  | t, [] => some (t, [])
  | t, linkHash :: linkHashes =>
    (t.addLinkHash linkHash).bind fun r =>
      (addLinkHashes r.1 linkHashes).map fun rest =>
        (rest.1, if r.2 then linkHash :: rest.2 else rest.2)

/-- Replaces the memory by a larger one and adds the hashes of the old one again.  Every one of them
should be new there. -/
def growTable (newTableSize : UInt32) : Option (VisitedLinkProvider κ) :=
  let linkHashes := (s.table.sharedMemory.getD []).filter (· ≠ 0)
  let table := VisitedLinkTable.setSharedMemory (List.replicate newTableSize.toNat 0)
  (addLinkHashes table linkHashes).map fun r =>
    { s with
      table := r.1
      tableSize := newTableSize
      foundDuplicate := s.foundDuplicate || r.2.length ≠ linkHashes.length }

/-- The first loop over the processes. -/
def notifyProcesses (grown : Bool) (addedVisitedLinks : List LinkHash) : VisitedLinkProvider κ :=
  if grown then
    { s with
      processesWithoutVisitedLinkState :=
        s.processesWithVisitedLinkState.foldr List.insert s.processesWithoutVisitedLinkState }
  else
    let message := if addedVisitedLinks.length ≤ 20 then
      ProcessMessage.visitedLinkStateChanged addedVisitedLinks else .allVisitedLinkStateChanged
    { s with sent := s.sent ++ s.processesWithVisitedLinkState.map fun process => (process, message) }

/-- The second loop; it returns at once if there is no handle. -/
def sendTable (createsHandle : κ → Bool) : List κ → VisitedLinkProvider κ → VisitedLinkProvider κ
  | [], s => { s with processesWithoutVisitedLinkState := [] }
  | process :: processes, s =>
    if !createsHandle process then s
    else sendTable createsHandle processes
      { s with
        sent := s.sent ++
          [(process, .setVisitedLinkTable), (process, .allVisitedLinkStateChanged)]
        processesWithVisitedLinkState := s.processesWithVisitedLinkState.insert process }

/-- The links go to the table, which is large enough, and the processes hear of it. -/
def movePendingLinks (pendingVisitedLinks : List LinkHash)
    (grown : Bool) (createsHandle : κ → Bool) : Option (VisitedLinkProvider κ) :=
  (addLinkHashes s.table pendingVisitedLinks).map fun r =>
    let s := { s with
      table := r.1
      keyCount := s.keyCount + UInt32.ofNat pendingVisitedLinks.length }
    let s := s.notifyProcesses grown r.2
    sendTable createsHandle s.processesWithoutVisitedLinkState s

/-- The size that the table gets when the timer fires.  `copyToVector` makes room for `size()` hashes:
these are the hashes that are iterated, as long as the deleted value is not added. -/
def newTableSize (page : PageSize) (s : VisitedLinkProvider κ) : UInt32 :=
  max s.tableSize (tableSizeForKeyCount page
    (s.keyCount + UInt32.ofNat (s.pendingVisitedLinks.iterate linkHashTraits).length))

def pendingVisitedLinksTimerFired (page : PageSize) (s : VisitedLinkProvider κ)
    (outcome : MemoryOutcome κ) : Option (VisitedLinkProvider κ) :=
  let pendingVisitedLinks := s.pendingVisitedLinks.iterate linkHashTraits
  let newTableSize := s.newTableSize page
  let s := { s with pendingVisitedLinks := s.pendingVisitedLinks.clear, timerIsActive := false }
  if s.tableSize = newTableSize then
    s.movePendingLinks pendingVisitedLinks false outcome.createsHandle
  -- the links that have been taken from the set are not put back
  else if !outcome.createsMemory then some s
  else (s.growTable newTableSize).bind fun s =>
    s.movePendingLinks pendingVisitedLinks true outcome.createsHandle

/-! ### Runs -/

inductive Action (κ : Type*) where
  | addVisitedLink (linkHash : LinkHash)
  | timerFires (outcome : MemoryOutcome κ)
  | processDidFinishLaunching (process : κ)
  | processDidClose (process : κ)

/-- A step that is not possible, or that does not end. -/
def step (page : PageSize) (s : VisitedLinkProvider κ) : Action κ → Option (VisitedLinkProvider κ)
  | .addVisitedLink linkHash => s.addVisitedLink linkHash
  | .timerFires outcome =>
    if s.timerIsActive then s.pendingVisitedLinksTimerFired page outcome else none
  | .processDidFinishLaunching process => some (s.processDidFinishLaunching process)
  | .processDidClose process => some (s.processDidClose process)

end VisitedLinkProvider

end QPlusWeb.VisitedLinks
