import QPlusWeb.StorageMap
import QPlusWeb.Runs
import Mathlib.Data.PNat.Basic

/-!
# Storage areas and their copies in web processes

Each web process has a `StorageAreaMap`, a copy of a `StorageArea` of the `StorageManager`.  Local
changes are made in the copy at once and sent to the manager, which answers them and tells the other
processes.  The channels between a process and the manager keep the order of the messages.
-/

namespace QPlusWeb.Storage

/-- The messages of `StorageManager`; identifiers of storage areas count from one. -/
inductive Request where
  | getValues (storageMapSeed : ℕ)
  | setItem (sourceStorageAreaID : ℕ+) (storageMapSeed : ℕ) (key value : Text)
  | removeItem (sourceStorageAreaID : ℕ+) (storageMapSeed : ℕ) (key : Text)
  | clear (sourceStorageAreaID : ℕ+) (storageMapSeed : ℕ)
  deriving DecidableEq

/-- The messages of `StorageAreaMap`. -/
inductive Message where
  | didGetValues (storageMapSeed : ℕ)
  | didSetItem (storageMapSeed : ℕ) (key : Text) (quotaError : Bool)
  | didRemoveItem (storageMapSeed : ℕ) (key : Text)
  | didClear (storageMapSeed : ℕ)
  | dispatchStorageEvent (sourceStorageAreaID : ℕ) (key newValue : Option Text)
  | clearCache
  deriving DecidableEq

/-! ### The copy in a web process -/

/-- `pendingValueChanges` is a counted set: a key occurs in the list as often as it was added. -/
structure StorageAreaMap where
  quotaInBytes : ℕ
  storageMap : Option StorageMap
  currentSeed : ℕ
  hasPendingClear : Bool
  hasPendingGetValues : Bool
  pendingValueChanges : List Text

namespace StorageAreaMap

def create (quotaInBytes : ℕ) : StorageAreaMap := ⟨quotaInBytes, none, 0, false, false, []⟩

variable (c : StorageAreaMap)

def resetValues : StorageAreaMap :=
  { c with
    storageMap := none
    pendingValueChanges := []
    hasPendingClear := false
    hasPendingGetValues := false
    currentSeed := c.currentSeed + 1 }

/-- The part of `loadValuesIfNeeded` behind the reply. -/
def loadValues (values : Items) : StorageAreaMap :=
  { c with
    storageMap := some ((StorageMap.create c.quotaInBytes).importItems values)
    hasPendingGetValues := true }

/-- `setItem` behind `loadValuesIfNeeded`, with the message it sends. -/
def setItem (c : StorageAreaMap) (sourceArea : ℕ+) (key value : Text) :
    StorageAreaMap × Option Request :=
  match c.storageMap with
  | none => (c, none)
  | some m =>
    if (m.setItem key (some value)).2.2 then (c, none)
    else if (m.setItem key (some value)).2.1 = some value then
      ({ c with storageMap := some (m.setItem key (some value)).1 }, none)
    else
      ({ c with
        storageMap := some (m.setItem key (some value)).1
        pendingValueChanges := key :: c.pendingValueChanges },
        some (.setItem sourceArea c.currentSeed key value))

def removeItem (c : StorageAreaMap) (sourceArea : ℕ+) (key : Text) :
    StorageAreaMap × Option Request :=
  match c.storageMap with
  | none => (c, none)
  | some m =>
    if (m.removeItem key).2 = none then ({ c with storageMap := some (m.removeItem key).1 }, none)
    else
      ({ c with
        storageMap := some (m.removeItem key).1
        pendingValueChanges := key :: c.pendingValueChanges },
        some (.removeItem sourceArea c.currentSeed key))

def clear (sourceArea : ℕ+) : StorageAreaMap × Option Request :=
  let c := c.resetValues
  ({ c with hasPendingClear := true, storageMap := some (.create c.quotaInBytes) },
    some (.clear sourceArea c.currentSeed))

/-- `item` behind `loadValuesIfNeeded`. -/
def item (key : Text) : Option Text := c.storageMap.bind fun m => m.getItem key

variable (storageMapSeed : ℕ)

def didGetValues : StorageAreaMap :=
  if c.currentSeed ≠ storageMapSeed then c else { c with hasPendingGetValues := false }

def didSetItem (key : Text) (quotaError : Bool) : StorageAreaMap :=
  if c.currentSeed ≠ storageMapSeed then c
  else if quotaError then c.resetValues
  else { c with pendingValueChanges := c.pendingValueChanges.erase key }

def didRemoveItem (key : Text) : StorageAreaMap :=
  if c.currentSeed ≠ storageMapSeed then c
  else { c with pendingValueChanges := c.pendingValueChanges.erase key }

def didClear : StorageAreaMap :=
  if c.currentSeed ≠ storageMapSeed then c else { c with hasPendingClear := false }

/-- The loop over the pending changes after a remote clear.  The value that is written into the new
map is the null string `oldValue`. -/
def keepPendingChanges : StorageMap :=
  c.pendingValueChanges.dedup.foldl (fun newStorageMap key =>
    if c.item key = none then newStorageMap else newStorageMap.setItemIgnoringQuota key none)
    (.create c.quotaInBytes)

def applyChange (key newValue : Option Text) : StorageAreaMap :=
  if c.hasPendingClear || c.hasPendingGetValues then c
  else
    match key with
    | none => { c with storageMap := some c.keepPendingChanges }
    | some key =>
      match c.storageMap with
      | none => c
      | some m =>
        if key ∈ c.pendingValueChanges then c
        else
          match newValue with
          | none => { c with storageMap := some (m.removeItem key).1 }
          | some value => { c with storageMap := some (m.setItemIgnoringQuota key (some value)) }

/-- The effect of `dispatchStorageEvent` on the copy. -/
def dispatchStorageEvent (sourceStorageAreaID : ℕ) (key newValue : Option Text) : StorageAreaMap :=
  if sourceStorageAreaID = 0 then c.applyChange key newValue else c

def receive : Message → StorageAreaMap
  | .didGetValues seed => c.didGetValues seed
  | .didSetItem seed key quotaError => c.didSetItem seed key quotaError
  | .didRemoveItem seed key => c.didRemoveItem seed key
  | .didClear seed => c.didClear seed
  | .dispatchStorageEvent sourceStorageAreaID key newValue =>
    c.dispatchStorageEvent sourceStorageAreaID key newValue
  | .clearCache => c.resetValues

/-- The assertions of the handlers of answers. -/
def Asserts : Message → Prop
  | .didGetValues seed => c.currentSeed = seed → c.hasPendingGetValues = true
  | .didSetItem seed key _ => c.currentSeed = seed → key ∈ c.pendingValueChanges
  | .didRemoveItem seed key => c.currentSeed = seed → key ∈ c.pendingValueChanges
  | .didClear seed => c.currentSeed = seed → c.hasPendingClear = true
  | .dispatchStorageEvent .. => True
  | .clearCache => True

end StorageAreaMap

/-- The calls of a web process; `item`, `contains`, `length` and `key` only read. -/
inductive LocalCall where
  | setItem (sourceArea : ℕ+) (key value : Text)
  | removeItem (sourceArea : ℕ+) (key : Text)
  | clear (sourceArea : ℕ+)
  | read

/-- A call once the values are loaded. -/
def StorageAreaMap.perform (c : StorageAreaMap) : LocalCall → StorageAreaMap × Option Request
  | .setItem sourceArea key value => c.setItem sourceArea key value
  | .removeItem sourceArea key => c.removeItem sourceArea key
  | .clear sourceArea => c.clear sourceArea
  | .read => (c, none)

/-- All calls but `clear` begin with `loadValuesIfNeeded`. -/
def LocalCall.loadsValues : LocalCall → Bool
  | .clear _ => false
  | _ => true

/-! ### The storage manager -/

/-- A storage area with its items imported. -/
structure StorageArea where
  quotaInBytes : ℕ
  storageMap : StorageMap

/-- What `dispatchEvents` tells the listeners. -/
structure Event where
  key : Option Text
  newValue : Option Text

namespace StorageArea

variable (a : StorageArea)

/-- The area, the event and `quotaException`. -/
def setItem (key value : Text) : StorageArea × Option Event × Bool :=
  if (a.storageMap.setItem key (some value)).2.2 then (a, none, true)
  else
    ({ a with storageMap := (a.storageMap.setItem key (some value)).1 },
      some ⟨some key, some value⟩, false)

def removeItem (key : Text) : StorageArea × Option Event :=
  let changed := { a with storageMap := (a.storageMap.removeItem key).1 }
  if (a.storageMap.removeItem key).2 = none then (changed, none)
  else (changed, some ⟨some key, none⟩)

/-- `clear(sourceConnection, …)` -/
def clear : StorageArea × Option Event :=
  if a.storageMap.length = 0 then (a, none)
  else ({ a with storageMap := .create a.quotaInBytes }, some ⟨none, none⟩)

/-- `clear()`, which sends `ClearCache` to all listeners. -/
def deleteItems : StorageArea := { a with storageMap := .create a.quotaInBytes }

/-- The area, the event and the answer to a request. -/
def handle : Request → StorageArea × Option Event × Message
  | .getValues seed => (a, none, .didGetValues seed)
  | .setItem _ seed key value =>
    ((a.setItem key value).1, (a.setItem key value).2.1,
      .didSetItem seed key (a.setItem key value).2.2)
  | .removeItem _ seed key => ((a.removeItem key).1, (a.removeItem key).2, .didRemoveItem seed key)
  | .clear _ seed => (a.clear.1, a.clear.2, .didClear seed)

end StorageArea

/-- The message of an event for a listener; the source gets its own identifier. -/
def eventMessages (sourceStorageAreaID : ℕ) (event : Option Event) : List Message :=
  match event with
  | none => []
  | some event => [.dispatchStorageEvent sourceStorageAreaID event.key event.newValue]

def Request.sourceStorageAreaID : Request → ℕ
  | .getValues _ => 0
  | .setItem id _ _ _ => id
  | .removeItem id _ _ => id
  | .clear id _ => id

/-! ### The system -/

/-- Whether a message answers a request. -/
def Message.answers : Message → Request → Bool
  | .didGetValues seed, .getValues seed' => decide (seed = seed')
  | .didSetItem seed key _, .setItem _ seed' key' _ => decide (seed = seed' ∧ key = key')
  | .didRemoveItem seed key, .removeItem _ seed' key' => decide (seed = seed' ∧ key = key')
  | .didClear seed, .clear _ seed' => decide (seed = seed')
  | _, _ => false

/-- A web process with its channels.  `call` waits for the reply of `GetValues`; meanwhile the process
does nothing else.  `unanswered` records the requests whose answers are not processed. -/
structure Process where
  map : StorageAreaMap
  requests : List Request
  messages : List Message
  call : Option (LocalCall × Option Items)
  unanswered : List Request

namespace Process

variable (p : Process)

def send (request : Option Request) : Process :=
  { p with
    requests := p.requests ++ request.toList
    unanswered := p.unanswered ++ request.toList }

/-- Performs a call with loaded values. -/
def perform (call : LocalCall) : Process :=
  { p with map := (p.map.perform call).1 }.send (p.map.perform call).2

/-- `loadValuesIfNeeded` sends `GetValues` and waits. -/
def begin (call : LocalCall) : Process :=
  if call.loadsValues && p.map.storageMap.isNone then
    { p with call := some (call, none) }.send (some (.getValues p.map.currentSeed))
  else p.perform call

def deliver (message : Message) (rest : List Message) : Process :=
  { p with
    map := p.map.receive message
    messages := rest
    unanswered := p.unanswered.eraseP message.answers }

/-- The process after the manager has handled its first request. -/
def answered (items : Items) (r : Request) (rest : List Request)
    (event : Option Event) (answer : Message) : Process :=
  { p with
    requests := rest
    messages := p.messages ++ eventMessages r.sourceStorageAreaID event ++ [answer]
    call := match r with
      | .getValues _ => p.call.map fun call => (call.1, some items)
      | _ => p.call }

/-- The process with messages on the way to it. -/
def informed (messages : List Message) : Process :=
  { p with messages := p.messages ++ messages }

/-- The process after the reply of `GetValues`. -/
def resumed (values : Items) : Process :=
  { p with map := p.map.loadValues values, call := none }

end Process

structure System (ι : Type*) where
  area : StorageArea
  process : ι → Process

inductive Action (ι : Type*) where
  | call (i : ι) (call : LocalCall)
  | resume (i : ι)
  | handleRequest (i : ι)
  | deliver (i : ι)
  | deleteEntries

namespace System
variable {ι : Type*} [DecidableEq ι]

/-- The manager handles a request of process `i`. -/
def handle (σ : System ι) (i : ι) (request : Request) (rest : List Request) : System ι :=
  let handled := σ.area.handle request
  { area := handled.1
    process := fun j =>
      if j = i then
        (σ.process j).answered σ.area.storageMap.items request rest handled.2.1 handled.2.2
      else (σ.process j).informed (eventMessages 0 handled.2.1) }

def step (σ : System ι) : Action ι → Option (System ι)
  | .call i call =>
    match (σ.process i).call with
    | some _ => none
    | none => some { σ with process := Function.update σ.process i ((σ.process i).begin call) }
  | .resume i =>
    match (σ.process i).call with
    | some (call, some values) =>
      let p := (σ.process i).resumed values
      some { σ with process := Function.update σ.process i (p.perform call) }
    | _ => none
  | .handleRequest i =>
    match (σ.process i).requests with
    | [] => none
    | request :: rest => some (σ.handle i request rest)
  | .deliver i =>
    match (σ.process i).call, (σ.process i).messages with
    | none, message :: rest =>
      some { σ with
        process := Function.update σ.process i ((σ.process i).deliver message rest) }
    | _, _ => none
  | .deleteEntries =>
    some
      { area := σ.area.deleteItems
        process := fun j => (σ.process j).informed [.clearCache] }

/-- New copies of an area, with nothing on the way. -/
structure Initial (σ : System ι) : Prop where
  items : ∀ k, σ.area.storageMap.items.lookup k ≠ some none
  process : ∀ i, ∃ quotaInBytes,
    σ.process i = ⟨.create quotaInBytes, [], [], none, []⟩

end System

end QPlusWeb.Storage
