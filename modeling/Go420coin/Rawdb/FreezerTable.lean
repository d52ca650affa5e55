import Mathlib.Data.Finset.Basic
import Mathlib.Logic.Function.Basic

/-!
# Freezer tables (`core/rawdb/freezer_table.go`)

A freezer table keeps numbered blobs in data files and, in an index file, one entry of six bytes
per item: the data file the item ends in and the offset of its end there.  Entry zero does not end
an item: it records the earliest data file (`tailId`) and the number of items deleted from the
tail (`itemOffset`).  Item `i` (counted from the first item ever stored) is index position
`i - itemOffset + 1`, and its blob runs from the end of the item before it, or from offset zero if
that one ends in another file, to its own end.

The index file is a list of entries and each data file a list of bytes, by file number; a file
cut to a larger size grows with zero bytes, which read back as the entry `⟨0, 0⟩`.  `repair` opens
a table from these files, `append`, `truncate` and `retrieve` are the table's methods, and reopening
a table is `repair` of what it left on disk.  Snappy compression is a parameter `Codec`.  The file
handles, the locks, the metrics and the size counter are left out; `errClosed` cannot arise, since a
`FreezerTable` is an open table.
-/

namespace Go420coin.Rawdb

/-- A blob of bytes. -/
abbrev Blob := List UInt8

/-- `indexEntry`; `filenum` is written as a `uint16`. -/
structure IndexEntry where
  filenum : UInt32
  offset : UInt32
  deriving DecidableEq, Repr

/-- The errors of the table's methods, and of the file operations under them. -/
inductive FreezerError where
  | outOfBounds
  | unexpectedItem (want got : UInt64)
  | missingDataFile (num : UInt32)
  | eof
  | invalidSize
  | notExist (num : UInt32)
  | corrupt
  deriving DecidableEq, Repr

/-- The block compression: `snappy.Encode` and `snappy.Decode`. -/
structure Codec where
  encode : Blob → Blob
  decode : Blob → Option Blob

/-- `freezerTable`, with the files it has on disk: the index, and the data files by number. -/
structure FreezerTable where
  index : List IndexEntry
  data : UInt32 → Option Blob
  files : Finset UInt32
  items : UInt64
  itemOffset : UInt32
  tailId : UInt32
  headId : UInt32
  headBytes : UInt32
  maxFileSize : UInt32
  noCompression : Bool

/-- A file cut, or grown with zeros, to `n` elements (`File.Truncate`). -/
def resize {α : Type} (zero : α) (l : List α) (n : Nat) : List α :=
  if n ≤ l.length then l.take n else l ++ List.replicate (n - l.length) zero

/-- The entry at a position of the index file (`ReadAt` of six bytes), `io.EOF` past its end. -/
def readEntry (index : List IndexEntry) (i : Nat) : Except FreezerError IndexEntry :=
  match index[i]? with
  | some e => .ok e
  | none => .error .eof

/-- The entry `Append` writes: the head file as a `uint16`, and the new end offset. -/
def marshalEntry (filenum offset : UInt32) : IndexEntry := ⟨filenum.toUInt16.toUInt32, offset⟩

variable (codec : Codec)

/-! ### `Append` -/

/-- `Append`: only the next item may be written; a blob that does not fit in the head file, or
whose end would overflow a `uint32`, starts the next data file. -/
def append (t : FreezerTable) (item : UInt64) (blob : Blob) : Except FreezerError FreezerTable :=
  if t.items ≠ item then .error (.unexpectedItem t.items item)
  else
    let blob := if t.noCompression then blob else codec.encode blob
    let bLen : UInt32 := blob.length.toUInt32
    let t := if t.headBytes + bLen < bLen || t.headBytes + bLen > t.maxFileSize then
        -- the next file is opened truncated, unless it is open already
        let nextID := t.headId + 1
        { t with
          data := if nextID ∈ t.files then t.data else Function.update t.data nextID (some [])
          files := insert nextID t.files
          headBytes := 0
          headId := nextID }
      else t
    let newOffset := t.headBytes + bLen
    .ok { t with
      data := Function.update t.data t.headId (some ((t.data t.headId).getD [] ++ blob))
      headBytes := newOffset
      index := t.index ++ [marshalEntry t.headId newOffset]
      items := t.items + 1 }

/-! ### `Retrieve` -/

/-- `getBounds`: the start offset, end offset and file of the item at index position
`item + 1`. -/
def getBounds (t : FreezerTable) (item : UInt64) : Except FreezerError (UInt32 × UInt32 × UInt32) := do
  let endIdx ← readEntry t.index (item + 1).toNat
  if item ≠ 0 then
    let startIdx ← readEntry t.index item.toNat
    -- an item that crosses into a new data file lies whole in that file
    if startIdx.filenum ≠ endIdx.filenum then pure (0, endIdx.offset, endIdx.filenum)
    else pure (startIdx.offset, endIdx.offset, endIdx.filenum)
  else
    -- entry zero holds the tail's metadata; the first item starts at offset zero
    pure (0, endIdx.offset, endIdx.filenum)

/-- `Retrieve`. -/
def retrieve (t : FreezerTable) (item : UInt64) : Except FreezerError Blob := do
  if t.items ≤ item then throw .outOfBounds
  if t.itemOffset.toUInt64 > item then throw .outOfBounds
  let (startOffset, endOffset, filenum) ← getBounds t (item - t.itemOffset.toUInt64)
  if filenum ∉ t.files then throw (.missingDataFile filenum)
  let content := (t.data filenum).getD []
  let size := endOffset - startOffset
  -- `ReadAt` fills the buffer or fails at the end of the file
  if content.length < startOffset.toNat + size.toNat then throw .eof
  let blob := (content.drop startOffset.toNat).take size.toNat
  if t.noCompression then pure blob
  else match codec.decode blob with
    | some blob => pure blob
    | none => throw .corrupt

/-! ### `truncate` -/

/-- `truncate`: the index file is cut to `items + 1` entries, and the head file to the end offset
of the entry at position `items`; if that entry lies in an earlier file, the files after it are
closed and deleted and it becomes the head. -/
def truncate (t : FreezerTable) (items : UInt64) : FreezerTable :=
  if t.items ≤ items then t
  else
    let index := resize ⟨0, 0⟩ t.index (items + 1).toNat
    -- the index now has an entry at `items`
    let expected := index.getD items.toNat ⟨0, 0⟩
    let t := { t with index := index }
    let t := if expected.filenum ≠ t.headId then
        let data := if (t.data expected.filenum).isSome then t.data
          else Function.update t.data expected.filenum (some [])
        { t with
          data := fun n => if n ∈ t.files ∧ n > expected.filenum then none else data n
          files := insert expected.filenum (t.files.filter (· ≤ expected.filenum))
          headId := expected.filenum }
      else t
    { t with
      data := Function.update t.data t.headId (some (resize 0 ((t.data t.headId).getD []) expected.offset.toNat))
      items := items
      headBytes := expected.offset }

/-! ### Opening a table: `repair` -/

/-- The loop of `repair` that cuts the head file and the index back until the last entry ends
where the head file ends.  `last` is the last entry read, `head` the head file; each round that
drops an entry reads the new last one (a failed read, before the first entry, leaves `last` as it
was), and a round with no entry left to drop fails as `Truncate` to a negative size does. -/
def repairLoop : Nat → List IndexEntry → IndexEntry → UInt32 → (UInt32 → Option Blob) →
    Except FreezerError (List IndexEntry × IndexEntry × UInt32 × (UInt32 → Option Blob))
  | 0, _, _, _, _ => .error .invalidSize
  | fuel + 1, index, last, head, data =>
    let contentSize := ((data head).getD []).length
    let contentExp := last.offset.toNat
    if contentExp = contentSize then .ok (index, last, head, data)
    else if contentExp < contentSize then
      -- a dangling head: cut the head file to the last offset
      .ok (index, last, head, Function.update data head (some (((data head).getD []).take contentExp)))
    else if index = [] then .error .invalidSize
    else
      -- dangling indexes: drop the last entry, and maybe go back to an earlier head file
      let index := index.dropLast
      let newLast := index.getLast?.getD last
      let data := if newLast.filenum ≠ last.filenum ∧ (data newLast.filenum).isNone then
          Function.update data newLast.filenum (some []) else data
      repairLoop fuel index newLast newLast.filenum data

/-- `repair`, as `newCustomTable` opens a table: the index gets its zero entry if it is new, the
head file and the index are cut back until they agree, and the data files from the tail to the
head are opened, the older ones read-only. -/
def repair (index : List IndexEntry) (data : UInt32 → Option Blob) (maxFileSize : UInt32)
    (noCompression : Bool) : Except FreezerError FreezerTable := do
  let index := if index = [] then [⟨0, 0⟩] else index
  let first := index.headD ⟨0, 0⟩
  let last := index.getLastD ⟨0, 0⟩
  -- the head file is opened for appending, created if missing
  let data := if (data last.filenum).isSome then data else Function.update data last.filenum (some [])
  let (index, last, head, data) ← repairLoop (index.length + 1) index last last.filenum data
  let headBytes := ((data head).getD []).length.toUInt32
  -- `preopen`: the files before the head are opened read-only and must exist
  let older := (List.range (last.filenum.toNat - first.filenum.toNat)).map
    fun i => (first.filenum.toNat + i).toUInt32
  match older.find? fun n => (data n).isNone with
  | some n => throw (.notExist n)
  | none =>
    pure {
      index := index
      data := data
      files := insert last.filenum older.toFinset
      items := first.offset.toUInt64 + (index.length.toUInt64 - 1)
      itemOffset := first.offset
      tailId := first.filenum
      headId := last.filenum
      headBytes := headBytes
      maxFileSize := maxFileSize
      noCompression := noCompression }

end Go420coin.Rawdb
