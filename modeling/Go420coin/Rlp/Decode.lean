import Go420coin.Rlp.Encode

/-!
# The RLP decoding stream (`rlp/decode.go`)

A `Stream` reads from a `bytes.Reader` (`r`, the unread input) under an input limit, keeps a stack of
the lists it is inside (`listpos`: bytes read so far and declared size, innermost first) and caches
the kind and size of the value ahead until that value is consumed (`kind = none` is Go's `kind = -1`).
Every read is charged by `willRead` to the innermost list and to the limit, and fails when it would
overflow either.  Each operation returns its result and the stream after it, also on failure: the
errors of `readKind` stay cached in `kinderr`.  On top of `Kind` the stream reads a value's contents
(`Bytes`), the value with a header (`Raw`), an integer (`uint`, `Bool`) and enters and leaves lists.

`decodeInterface` decodes into an `interface{}`: a list becomes `[]interface{}` through
`decodeListSlice`, anything else a byte slice through `Bytes`.  `decodeBytes` is `DecodeBytes`.
-/

namespace Go420coin.Rlp

open BigEndian

/-- `Kind`: the kind of value ahead in a stream. -/
inductive Kind where
  | byte
  | string
  | list
  deriving Repr, DecidableEq

/-- The errors of the stream and of `decodeInterface`.  `decode` is Go's `*decodeError` (its Go type is
left out); `outOfFuel` is no error of the Go code but the model's bound on the recursion, which
`decodeBytes` never exhausts. -/
inductive Error where
  | eol
  | expectedString
  | expectedList
  | canonInt
  | canonSize
  | elemTooLarge
  | valueTooLarge
  | moreThanOneValue
  | notInList
  | notAtEOL
  | uintOverflow
  | eof
  | unexpectedEOF
  | decode (msg : String) (ctx : List String)
  | invalidBool (num : Nat)
  | outOfFuel
  deriving Repr, DecidableEq

/-- The texts of the error values. -/
def Error.text : Error → String
  | .eol => "rlp: end of list"
  | .expectedString => "rlp: expected String or Byte"
  | .expectedList => "rlp: expected List"
  | .canonInt => "rlp: non-canonical integer format"
  | .canonSize => "rlp: non-canonical size information"
  | .elemTooLarge => "rlp: element is larger than containing list"
  | .valueTooLarge => "rlp: value size exceeds available input length"
  | .moreThanOneValue => "rlp: input contains more than one value"
  | .notInList => "rlp: call of ListEnd outside of any list"
  | .notAtEOL => "rlp: call of ListEnd not positioned at EOL"
  | .uintOverflow => "rlp: uint overflow"
  | .eof => "EOF"
  | .unexpectedEOF => "unexpected EOF"
  | .decode msg ctx => "rlp: " ++ msg ++ String.join ctx.reverse
  | .invalidBool num => "rlp: invalid boolean value: " ++ toString num
  | .outOfFuel => "out of fuel"

/-- `wrapStreamError`. -/
def wrapStreamError : Error → Error
  | .canonInt => .decode "non-canonical integer (leading zero bytes)" []
  | .canonSize => .decode "non-canonical size information" []
  | .expectedList => .decode "expected input list" []
  | .expectedString => .decode "expected input string or byte" []
  | .uintOverflow => .decode "input string too long" []
  | .notAtEOL => .decode "input list has too many elements" []
  | e => e

/-- `addErrorContext`. -/
def addErrorContext : Error → String → Error
  | .decode msg ctx, c => .decode msg (ctx ++ [c])
  | e, _ => e

/-- `listpos`: bytes read inside a list so far, and its declared size. -/
structure ListPos where
  pos : Nat
  size : Nat
  deriving Repr, DecidableEq

structure Stream where
  r : List UInt8
  remaining : Nat
  limited : Bool
  kind : Option Kind
  size : Nat
  byteval : UInt8
  kinderr : Option Error
  stack : List ListPos
  deriving Repr, DecidableEq

namespace Stream

/-- `Reset` on a `bytes.Reader` over `input`: the limit is `inputLimit`, or the length of the input when
`inputLimit` is zero. -/
def reset (input : List UInt8) (inputLimit : Nat) : Stream :=
  { r := input
    remaining := if inputLimit > 0 then inputLimit else input.length
    limited := true
    kind := none
    size := 0
    byteval := 0
    kinderr := none
    stack := [] }

/-- `willRead`: rearm `Kind`, then charge `n` bytes to the innermost list and to the input limit. -/
def willRead (s : Stream) (n : Nat) : Except Error Unit × Stream :=
  let s := { s with kind := none }
  let listed : Except Error Stream :=
    match s.stack with
    | [] => .ok s
    | tos :: up =>
      if n > tos.size - tos.pos then .error .elemTooLarge
      else .ok { s with stack := { tos with pos := tos.pos + n } :: up }
  match listed with
  | .error e => (.error e, s)
  | .ok s =>
    if s.limited then
      if n > s.remaining then (.error .valueTooLarge, s)
      else (.ok (), { s with remaining := s.remaining - n })
    else (.ok (), s)

def readByte (s : Stream) : Except Error UInt8 × Stream :=
  match s.willRead 1 with
  | (.error e, s) => (.error e, s)
  | (.ok (), s) =>
    match s.r with
    | [] => (.error .unexpectedEOF, s)
    | b :: r => (.ok b, { s with r := r })

/-- `readFull` of a buffer of `n` bytes; a short input is consumed and reported as an unexpected EOF. -/
def readFull (s : Stream) (n : Nat) : Except Error (List UInt8) × Stream :=
  match s.willRead n with
  | (.error e, s) => (.error e, s)
  | (.ok (), s) =>
    if n ≤ s.r.length then (.ok (s.r.take n), { s with r := s.r.drop n })
    else (.error .unexpectedEOF, { s with r := [] })

/-- `readUint`: a big-endian integer of `size` bytes (at most 8); two or more bytes must not start with
a zero byte. -/
def readUint (s : Stream) : Nat → Except Error Nat × Stream
  | 0 => (.ok 0, { s with kind := none })
  | 1 =>
    match s.readByte with
    | (.error e, s) => (.error e, s)
    | (.ok b, s) => (.ok b.toNat, s)
  | size + 2 =>
    match s.readFull (size + 2) with
    | (.error e, s) => (.error e, s)
    | (.ok buf, s) => if buf.headD 0 = 0 then (.error .canonSize, s) else (.ok (ofBytes buf), s)

/-- The long-form size of a value: `readUint`, then sizes below 56 are not canonical. -/
def readSize (s : Stream) (sizesize : Nat) : Nat × Option Error × Stream :=
  match s.readUint sizesize with
  | (.error e, s) => (0, some e, s)
  | (.ok size, s) => (size, if size < 56 then some .canonSize else none, s)

/-- `readKind`: the kind and size of the value whose type tag is next in the input, and an error. -/
def readKind (s : Stream) : (Kind × Nat × Option Error) × Stream :=
  match s.readByte with
  | (.error e, s) =>
    let e := if s.stack.isEmpty then
      (match e with
        | .unexpectedEOF => .eof
        | .valueTooLarge => .eof
        | e => e)
      else e
    ((.byte, 0, some e), s)
  | (.ok b, s) =>
    let s := { s with byteval := 0 }
    if b < 0x80 then ((.byte, 0, none), { s with byteval := b })
    else if b < 0xB8 then ((.string, (b - 0x80).toNat, none), s)
    else if b < 0xC0 then
      let (size, err, s) := s.readSize (b - 0xB7).toNat
      ((.string, size, err), s)
    else if b < 0xF8 then ((.list, (b - 0xC0).toNat, none), s)
    else
      let (size, err, s) := s.readSize (b - 0xF7).toNat
      ((.list, size, err), s)

/-- The error of a cached kind, if any. -/
def cached (s : Stream) (k : Kind) : Except Error (Kind × Nat) :=
  match s.kinderr with
  | some e => .error e
  | none => .ok (k, s.size)

/-- `Kind`: the kind and size of the next value.  The first call reads the type tag and checks that the
value fits the innermost list (or, at top level, the input limit); later calls return the cached
answer until the value is consumed.  At the end of the innermost list it returns `EOL`. -/
def getKind (s : Stream) : Except Error (Kind × Nat) × Stream :=
  match s.kind with
  | some k => (s.cached k, s)
  | none =>
    let s := { s with kinderr := none }
    match s.stack with
    | tos :: _ =>
      if tos.pos = tos.size then (.error .eol, s)
      else
        let ((k, size, err), s) := s.readKind
        -- the header bytes were charged to the innermost list, `tos` in Go points to it
        let err := match err with
          | some e => some e
          | none =>
            match s.stack with
            | tos :: _ => if size > tos.size - tos.pos then some .elemTooLarge else none
            | [] => none
        let s := { s with kind := some k, size := size, kinderr := err }
        (s.cached k, s)
    | [] =>
      let ((k, size, err), s) := s.readKind
      let err := match err with
        | some e => some e
        | none => if s.limited ∧ size > s.remaining then some .valueTooLarge else none
      let s := { s with kind := some k, size := size, kinderr := err }
      (s.cached k, s)

/-- `Bytes`: the contents of a string; a one-byte string below `0x80` is not canonical. -/
def bytes (s : Stream) : Except Error (List UInt8) × Stream :=
  match s.getKind with
  | (.error e, s) => (.error e, s)
  | (.ok (.byte, _), s) => (.ok [s.byteval], { s with kind := none })
  | (.ok (.string, size), s) =>
    match s.readFull size with
    | (.error e, s) => (.error e, s)
    | (.ok b, s) => if size = 1 ∧ b.headD 0 < 128 then (.error .canonSize, s) else (.ok b, s)
  | (.ok (.list, _), s) => (.error .expectedString, s)

/-- `Raw`: the value ahead with its type information.  Its header was read already, so a new one is
put in front of the contents read. -/
def raw (s : Stream) : Except Error (List UInt8) × Stream :=
  match s.getKind with
  | (.error e, s) => (.error e, s)
  | (.ok (kind, size), s) =>
    if kind = .byte then (.ok [s.byteval], { s with kind := none })
    else
      match s.readFull size with
      | (.error e, s) => (.error e, s)
      | (.ok b, s) =>
        (.ok ((if kind = .string then puthead 0x80 0xB7 size else puthead 0xC0 0xF7 size) ++ b), s)

/-- `uint`: a string of at most `maxbits / 8` bytes read as an integer without leading zeros; a
single byte below 128 must stand for itself.  `Uint` is `uint 64`. -/
def uint (s : Stream) (maxbits : Nat) : Except Error UInt64 × Stream :=
  match s.getKind with
  | (.error e, s) => (.error e, s)
  | (.ok (.byte, _), s) =>
    if s.byteval = 0 then (.error .canonInt, s)
    else (.ok s.byteval.toUInt64, { s with kind := none })
  | (.ok (.string, size), s) =>
    if size > maxbits / 8 then (.error .uintOverflow, s)
    else
      match s.readUint size with
      -- not a size being read: a leading zero makes a non-canonical integer
      | (.error .canonSize, s) => (.error .canonInt, s)
      | (.error e, s) => (.error e, s)
      | (.ok v, s) => if size > 0 ∧ v < 128 then (.error .canonSize, s) else (.ok v.toUInt64, s)
  | (.ok (.list, _), s) => (.error .expectedString, s)

/-- `Bool`: an integer of at most one byte, which must be 0 or 1. -/
def bool (s : Stream) : Except Error Bool × Stream :=
  match s.uint 8 with
  | (.error e, s) => (.error e, s)
  | (.ok num, s) =>
    if num = 0 then (.ok false, s) else if num = 1 then (.ok true, s)
    else (.error (.invalidBool num.toNat), s)

/-- `List`: enter the list ahead; returns its size. -/
def list (s : Stream) : Except Error Nat × Stream :=
  match s.getKind with
  | (.error e, s) => (.error e, s)
  | (.ok (k, size), s) =>
    if k ≠ .list then (.error .expectedList, s)
    else (.ok size, { s with stack := ⟨0, size⟩ :: s.stack, kind := none, size := 0 })

/-- `ListEnd`: leave the innermost list, which must have been read to its end, and charge its size to
the enclosing list. -/
def listEnd (s : Stream) : Except Error Unit × Stream :=
  match s.stack with
  | [] => (.error .notInList, s)
  | tos :: up =>
    if tos.pos ≠ tos.size then (.error .notAtEOL, s)
    else
      let up := match up with
        | [] => []
        | enc :: up => { enc with pos := enc.pos + tos.size } :: up
      (.ok (), { s with stack := up, kind := none, size := 0 })

end Stream

/-- `decodeSliceElems`: decode elements with `elemdec` until it reports `EOL`.  `fuel` bounds the
iterations; `decodeListSlice` gives one more than the bytes left, and every element takes a byte. -/
def decodeSliceElems (elemdec : Stream → Except Error Value × Stream) :
    Nat → Stream → List Value → Except Error (List Value) × Stream
  | 0, s, _ => (.error .outOfFuel, s)
  | fuel + 1, s, acc =>
    match elemdec s with
    | (.error .eol, s) => (.ok acc, s)
    | (.error e, s) => (.error (addErrorContext e ("[" ++ toString acc.length ++ "]")), s)
    | (.ok v, s) => decodeSliceElems elemdec fuel s (acc ++ [v])

/-- `decodeListSlice` into a `[]interface{}`. -/
def decodeListSlice (elemdec : Stream → Except Error Value × Stream) (s : Stream) :
    Except Error Value × Stream :=
  match s.list with
  | (.error e, s) => (.error (wrapStreamError e), s)
  | (.ok size, s) =>
    if size = 0 then
      match s.listEnd with
      | (.error e, s) => (.error e, s)
      | (.ok (), s) => (.ok (.list []), s)
    else
      match decodeSliceElems elemdec (s.r.length + 1) s [] with
      | (.error e, s) => (.error e, s)
      | (.ok vs, s) =>
        match s.listEnd with
        | (.error e, s) => (.error e, s)
        | (.ok (), s) => (.ok (.list vs), s)

/-- `decodeInterface`: a list becomes a slice of values, anything else a byte slice.  `depth` bounds
the nesting of lists. -/
def decodeInterface : Nat → Stream → Except Error Value × Stream
  | 0, s => (.error .outOfFuel, s)
  | depth + 1, s =>
    match s.getKind with
    | (.error e, s) => (.error e, s)
    | (.ok (.list, _), s) => decodeListSlice (decodeInterface depth) s
    | (.ok _, s) =>
      match s.bytes with
      | (.error e, s) => (.error e, s)
      | (.ok b, s) => (.ok (.bytes b), s)

/-- `Stream.Decode` into an `interface{}`: a decode error with a context gets the target type. -/
def Stream.decode (s : Stream) (depth : Nat) : Except Error Value × Stream :=
  match decodeInterface depth s with
  | (.error (.decode msg ctx), s) =>
    if ctx.isEmpty then (.error (.decode msg ctx), s)
    else (.error (.decode msg (ctx ++ ["(interface {})"])), s)
  | res => res

/-- `DecodeBytes` into an `interface{}`: exactly one value and no trailing data.  Lists nest at most
as deep as the input is long. -/
def decodeBytes (b : List UInt8) : Except Error Value :=
  match (Stream.reset b b.length).decode (b.length + 1) with
  | (.error e, _) => .error e
  | (.ok v, s) => if s.r.length > 0 then .error .moreThanOneValue else .ok v

end Go420coin.Rlp
