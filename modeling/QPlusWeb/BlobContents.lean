import Mathlib.Data.Int.Order.Basic
import Mathlib.Data.List.Basic
import Mathlib.Tactic.Linarith

/-!
# The contents of blobs

The registry stores a blob as a list of ranges of raw data and of files; a blob that is a part of another
one is replaced by its own items, cut to the range that is taken of it.  A blob is alive as long as
another one is made of it, so here it stands for what is stored under its URL.  A file is given by its
snapshot.
-/

namespace QPlusWeb.WebCore.Blobs
open List

inductive ItemSource (F : Type) where
  | data (bytes : List UInt8)
  | file (snapshot : F)

/-- A `BlobDataItem` of the registry. -/
structure StorageItem (F : Type) where
  source : ItemSource F
  offset : ℕ
  length : ℕ

structure Blob (F : Type) where
  items : List (StorageItem F)
  size : ℕ

/-- A `BlobDataItem` that is to be registered; raw data is taken as a whole. -/
inductive BlobDataItem (F : Type) where
  | data (bytes : List UInt8)
  | file (snapshot : F) (offset length : ℕ)
  | blob (blob : Blob F) (offset length : ℕ)

structure BlobBuilder (F : Type) where
  items : List (BlobDataItem F)
  size : ℕ

variable {F : Type}

/-! ### The registry -/

/-- The first loop of `appendStorageItems`. -/
def skipItems : List (StorageItem F) → ℕ → List (StorageItem F) × ℕ
  | [], offset => ([], offset)
  | item :: items, offset =>
    if offset ≥ item.length then skipItems items (offset - item.length) else (item :: items, offset)

/-- The second loop of `appendStorageItems`. -/
def takeItems : List (StorageItem F) → ℕ → ℕ → List (StorageItem F)
  | [], _, _ => []
  | item :: items, offset, length =>
    if length > 0 then
      let currentLength := item.length - offset
      let newLength := if currentLength > length then length else currentLength
      ⟨item.source, item.offset + offset, newLength⟩ :: takeItems items 0 (length - newLength)
    else []

def appendStorageItems (items : List (StorageItem F)) (offset length : ℕ) : List (StorageItem F) :=
  let start := if offset ≠ 0 then skipItems items offset else (items, offset)
  takeItems start.1 start.2 length

/-- What `registerBlobURL` stores for an item. -/
def BlobDataItem.stored : BlobDataItem F → List (StorageItem F)
  | .data bytes => [⟨.data bytes, 0, bytes.length⟩]
  | .file snapshot offset length => [⟨.file snapshot, offset, length⟩]
  | .blob source offset length => appendStorageItems source.items offset length

def Blob.create (items : List (BlobDataItem F)) (size : ℕ) : Blob F :=
  ⟨items.flatMap BlobDataItem.stored, size⟩

/-! ### Slices and builders -/

/-- The start and the length that `Blob::slice` computes. -/
def sliceRange (size start stop : ℤ) : ℕ × ℕ :=
  let start := if start < 0 then start + size else start
  let stop := if stop < 0 then stop + size else stop
  let start := if start < 0 then 0 else start
  let stop := if stop < 0 then 0 else stop
  let range :=
    if start ≥ size then (0, 0)
    else if stop < start then (start, start)
    else if stop > size then (start, size)
    else (start, stop)
  (range.1.toNat, (range.2 - range.1).toNat)

/-- `Blob::slice` of a blob or of a file, which makes an item of a range. -/
def slice (item : ℕ → ℕ → BlobDataItem F) (size : ℕ) (start stop : ℤ) : Blob F :=
  let range := sliceRange size start stop
  .create [item range.1 range.2] range.2

namespace BlobBuilder

/-- Bytes go to the last item if it is raw data. -/
def appendBytesData (b : BlobBuilder F) (bytes : List UInt8) : BlobBuilder F where
  items := match b.items.getLast? with
    | some (.data buffer) => b.items.dropLast ++ [.data (buffer ++ bytes)]
    | _ => b.items ++ [.data bytes]
  size := b.size + bytes.length

/-- `append` of a blob or of a file. -/
def append (b : BlobBuilder F) (item : ℕ → ℕ → BlobDataItem F) (size : ℕ) : BlobBuilder F :=
  ⟨b.items ++ [item 0 size], b.size + size⟩

/-- The builder goes on with the blob that it has made. -/
def getBlob (b : BlobBuilder F) : Blob F × BlobBuilder F :=
  let blob := .create b.items b.size
  (blob, { b with items := [.blob blob 0 b.size] })

end BlobBuilder

/-! ### The bytes that blobs are made of -/

variable (contents : F → List UInt8)

/-- A negative position is counted from the end. -/
def position (size p : ℤ) : ℕ := (max 0 (min size (if p < 0 then p + size else p))).toNat

def sliceBytes (bytes : List UInt8) (start stop : ℤ) : List UInt8 :=
  (bytes.take (position bytes.length stop)).drop (position bytes.length start)

mutual

/-- The blobs that calls of these functions make, with the bytes that they are to have. -/
inductive Made : Blob F → List UInt8 → Prop
  | getBlob {b bytes} : Built b bytes → Made b.getBlob.1 bytes
  | slice {blob bytes start stop} : Made blob bytes →
      Made (slice (.blob blob) blob.size start stop) (sliceBytes bytes start stop)
  | sliceFile {snapshot start stop} :
      Made (slice (.file snapshot) (contents snapshot).length start stop)
        (sliceBytes (contents snapshot) start stop)

inductive Built : BlobBuilder F → List UInt8 → Prop
  | create : Built ⟨[], 0⟩ []
  | appendBytesData {b bytes bytes'} : Built b bytes →
      Built (b.appendBytesData bytes') (bytes ++ bytes')
  | appendFile {b bytes snapshot} : Built b bytes →
      Built (b.append (.file snapshot) (contents snapshot).length) (bytes ++ contents snapshot)
  | appendBlob {b blob bytes bytes'} : Built b bytes →
      Made blob bytes' → Built (b.append (.blob blob) blob.size) (bytes ++ bytes')
  | getBlob {b bytes} : Built b bytes → Built b.getBlob.2 bytes

end

/-! ### Items and their bytes -/

def ItemSource.bytes : ItemSource F → List UInt8
  | .data bytes => bytes
  | .file snapshot => contents snapshot

def cut (bytes : List UInt8) (offset length : ℕ) : List UInt8 := (bytes.drop offset).take length

def StorageItem.bytes (item : StorageItem F) : List UInt8 :=
  cut (item.source.bytes contents) item.offset item.length

/-- The items are ranges of their sources and have these bytes one after another. -/
structure Holds (items : List (StorageItem F)) (bytes : List UInt8) : Prop where
  within : ∀ item ∈ items, item.offset + item.length ≤ (item.source.bytes contents).length
  eq : items.flatMap (StorageItem.bytes contents) = bytes

structure Blob.Denotes (blob : Blob F) (bytes : List UInt8) : Prop where
  holds : Holds contents blob.items bytes
  size : blob.size = bytes.length

variable {contents} {items items' : List (StorageItem F)} {bytes bytes' : List UInt8} {offset : ℕ}

section
variable {item : StorageItem F}
  (hitem : item.offset + item.length ≤ (item.source.bytes contents).length)
include hitem

theorem length_bytes : (item.bytes contents).length = item.length := by
  rw [StorageItem.bytes,cut,length_take,length_drop]
  omega

theorem Holds.cons (h : Holds contents items bytes) :
    Holds contents (item::items) (item.bytes contents++bytes) :=
  ⟨forall_mem_cons.mpr ⟨hitem,h.within⟩,by rw [flatMap_cons,h.eq]⟩

/-- The front of an item behind an offset, and what follows the item. -/
theorem cut_bytes_append (ho : offset ≤ item.length) (length : ℕ) :
    cut (item.bytes contents++bytes) offset length =
      cut (item.source.bytes contents) (item.offset+offset) (min length (item.length-offset)) ++
        cut bytes 0 (length-min length (item.length-offset)) := by
  have hl := length_bytes hitem
  have hr : length-min length (item.length-offset) = length-(item.length-offset) := by
    omega
  rw [cut,drop_append_of_le_length (by omega),take_append,length_drop,hl,
    StorageItem.bytes,cut,cut,cut,drop_take,take_take,drop_drop,drop_zero,
    hr]

end

theorem Holds.append (h : Holds contents items bytes) (h' : Holds contents items' bytes') :
    Holds contents (items++items') (bytes++bytes') :=
  ⟨forall_mem_append.mpr ⟨h.within,h'.within⟩,by rw [flatMap_append,h.eq,h'.eq]⟩

theorem Holds.sum_eq (h : Holds contents items bytes) :
    (items.map (·.length)).sum = bytes.length := by
  rw [← h.eq,length_flatMap]
  exact congrArg _ (map_congr_left fun item hitem => (length_bytes (h.within item hitem)).symm)

/-! ### The loops of the registry -/

section
variable (h : Holds contents items bytes)
include h

theorem skipItems_spec (offset : ℕ) : ∃ rest, Holds contents (skipItems items offset).1 rest ∧
      bytes.drop offset = rest.drop (skipItems items offset).2 ∧
      ∀ item ∈ (skipItems items offset).1.head?, (skipItems items offset).2 ≤ item.length := by
  obtain ⟨hw,rfl⟩ := h
  induction items generalizing offset with
  | nil => exact ⟨[],⟨nofun,rfl⟩,rfl,nofun⟩
  | cons item items ih =>
    obtain ⟨hitem,hi⟩ := forall_mem_cons.mp hw
    unfold skipItems
    split
    next hge =>
      obtain ⟨rest,hr,hd,hh⟩ := ih (offset-item.length) hi
      have hl := length_bytes hitem
      refine ⟨rest,hr,?_,hh⟩
      rw [flatMap_cons,drop_append,drop_eq_nil_of_le (by omega),nil_append,hl,hd]
    next hlt => exact ⟨_,⟨hw,rfl⟩,rfl,by simpa using Nat.le_of_not_le hlt⟩

theorem takeItems_spec (ho : ∀ item ∈ items.head?, offset ≤ item.length) (length : ℕ) :
    Holds contents (takeItems items offset length) (cut bytes offset length) := by
  obtain ⟨hw,rfl⟩ := h
  induction items generalizing offset length with
  | nil => exact ⟨nofun,by simp [takeItems,cut]⟩
  | cons item items ih =>
    obtain ⟨hitem,hi⟩ := forall_mem_cons.mp hw
    unfold takeItems
    split
    next =>
      have hn : (if item.length-offset > length then length else item.length-offset) =
          min length (item.length-offset) := by split <;> omega
      rw [flatMap_cons,cut_bytes_append hitem (ho item rfl)]
      simp only [hn]
      refine Holds.cons ?_ (ih (fun _ _ => Nat.zero_le _) _ hi)
      have hle := ho item rfl
      dsimp only
      omega
    next hz =>
      obtain rfl : length = 0 := by omega
      exact ⟨nofun,rfl⟩

theorem appendStorageItems_spec (offset length : ℕ) :
    Holds contents (appendStorageItems items offset length) (cut bytes offset length) := by
  unfold appendStorageItems
  split
  next =>
    obtain ⟨rest,hr,hd,hh⟩ := skipItems_spec h offset
    rw [cut,hd]
    exact takeItems_spec hr hh length
  next hz =>
    obtain rfl : offset = 0 := by simpa using hz
    exact takeItems_spec h (fun _ _ => Nat.zero_le _) length

end

/-! ### Blobs -/

section
variable {b : BlobBuilder F} {blob : Blob F} {item : ℕ → ℕ → BlobDataItem F}

theorem holds_data (bytes : List UInt8) :
    Holds contents (BlobDataItem.data bytes).stored bytes := by
  refine ⟨forall_mem_singleton.mpr (Nat.le_of_eq (Nat.zero_add _)),?_⟩
  rw [BlobDataItem.stored,flatMap_singleton]
  exact take_length

theorem holds_file {snapshot : F} {length : ℕ} (h : offset+length ≤ (contents snapshot).length) :
    Holds contents (BlobDataItem.file snapshot offset length).stored
      (cut (contents snapshot) offset length) :=
  ⟨forall_mem_singleton.mpr h,flatMap_singleton ..⟩

theorem appendBytesData_denotes (h : (Blob.create b.items b.size).Denotes contents bytes) :
    (Blob.create (b.appendBytesData bytes').items (b.appendBytesData bytes').size).Denotes contents
      (bytes++bytes') := by
  refine ⟨?_,(congrArg (· + bytes'.length) h.size).trans length_append.symm⟩
  have hh : Holds contents (b.items.flatMap BlobDataItem.stored) bytes := h.holds
  unfold BlobBuilder.appendBytesData Blob.create
  split
  next buffer hl =>
    rw [← dropLast_append_getLast? _ hl,flatMap_append,flatMap_singleton]
      at hh
    obtain ⟨hw,rfl⟩ := hh
    rw [flatMap_append,flatMap_append,append_assoc,(holds_data buffer).eq]
    exact Holds.append ⟨(forall_mem_append.mp hw).1,rfl⟩ (by simpa using holds_data _)
  next =>
    rw [flatMap_append]
    exact hh.append (by simpa using holds_data bytes')

theorem sliceRange_spec (n : ℕ) (start stop : ℤ) :
    (sliceRange n start stop).1+(sliceRange n start stop).2 ≤ n ∧
      (sliceRange n start stop).2 = position n stop-position n start ∧
      ((sliceRange n start stop).2 = 0 ∨ (sliceRange n start stop).1 = position n start) := by
  unfold sliceRange position
  dsimp only
  split_ifs <;> dsimp only <;> omega

section
variable (hitem : ∀ offset length, offset + length ≤ bytes.length →
  Holds contents (item offset length).stored (cut bytes offset length))
include hitem

theorem slice_denotes (start stop : ℤ) :
    (slice item bytes.length start stop).Denotes contents (sliceBytes bytes start stop) := by
  obtain ⟨hle,hl,hs⟩ := sliceRange_spec bytes.length start stop
  have hc : cut bytes (sliceRange bytes.length start stop).1
      (sliceRange bytes.length start stop).2 = sliceBytes bytes start stop := by
    rw [cut,sliceBytes,drop_take,← hl]
    rcases hs with hz | hs
    · rw [hz,take_zero,take_zero]
    · rw [hs]
  refine ⟨?_,?_⟩
  · rw [← hc]
    simpa [slice,Blob.create] using hitem _ _ hle
  · rw [← hc,cut,length_take,length_drop]
    exact (Nat.min_eq_left (Nat.le_sub_of_add_le' hle)).symm

theorem append_denotes (h : (Blob.create b.items b.size).Denotes contents bytes') :
    (Blob.create (b.append item bytes.length).items (b.append item bytes.length).size).Denotes contents
      (bytes'++bytes) := by
  have hh := hitem 0 bytes.length (Nat.le_of_eq (Nat.zero_add _))
  rw [cut,drop_zero,take_length] at hh
  refine ⟨?_,(congrArg (· + bytes.length) h.size).trans length_append.symm⟩
  rw [BlobBuilder.append,Blob.create,flatMap_append]
  exact h.holds.append (by simpa using hh)

end

mutual

theorem Made.denotes {blob : Blob F} {bytes : List UInt8} :
    Made contents blob bytes → blob.Denotes contents bytes
  | .getBlob h => h.denotes
  | .slice h => by
    rw [h.denotes.size]
    exact slice_denotes (fun _ _ _ => appendStorageItems_spec h.denotes.holds _ _) _ _
  | .sliceFile => slice_denotes (fun _ _ => holds_file) _ _

theorem Built.denotes {b : BlobBuilder F} {bytes : List UInt8} :
    Built contents b bytes → (Blob.create b.items b.size).Denotes contents bytes
  | .create => ⟨⟨nofun,rfl⟩,rfl⟩
  | .appendBytesData h => appendBytesData_denotes h.denotes
  | .appendFile h => append_denotes (fun _ _ => holds_file) h.denotes
  | .appendBlob h hb => by
    rw [hb.denotes.size]
    exact append_denotes (fun _ _ _ => appendStorageItems_spec hb.denotes.holds _ _) h.denotes
  | .getBlob (b := b) h => by
    have hs : b.size = bytes.length := h.denotes.size
    have hh := appendStorageItems_spec h.denotes.holds 0 b.size
    rw [cut,drop_zero,take_of_length_le (Nat.le_of_eq hs.symm)] at hh
    refine ⟨?_,hs⟩
    rw [BlobBuilder.getBlob,Blob.create,flatMap_singleton]
    exact hh

end

end

/-- The last four bytes of two bytes and a file. -/
def sampleBlob : Blob Unit :=
  slice (.blob (BlobBuilder.append (.appendBytesData ⟨[], 0⟩ [7, 8]) (.file ()) 3).getBlob.1) 5 (-4) 9

end QPlusWeb.WebCore.Blobs
