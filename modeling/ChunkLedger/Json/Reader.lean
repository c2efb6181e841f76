import ChunkLedger.Json.Problem
import ChunkLedger.Hash.Digest

/-!
# Reading typed values

A reader takes a document apart and gives a value or the first problem in reading order.  Readers
for whole numbers, truth values, texts, digests, byte strings, instants and lists are here;
records are in `Record`.

`readFrom` reads a text: the document has to be all there is.
-/

namespace ChunkLedger.Json

abbrev Reader (α : Type) := Doc → Except Problem α

/-- Where documents come from: a text that is being read, or a value read before. -/
inductive Source where
  | text
  | value
deriving DecidableEq, Repr

/-- what stands in a document's place; a container is not looked into -/
def Doc.seen : Doc → Except Break Seen
  | .null => .ok .null
  | .bool b => .ok (.bool b)
  | .number n => n.check.map .number
  | .text t => t.decode.map .text
  | .array _ _ => .ok .sequence
  | .object _ _ => .ok .map
  | .brokenWord e => .error e
  | .fault e => .error e

/-- the refusal of a document where something else is expected -/
def Doc.refuse {α : Type} (expected : String) (d : Doc) : Except Problem α := do
  let s ← ofForm d.seen
  throw (.content (.wrongType s expected))

/-! ## single values -/

/-- a whole number of 64 bits; messages call its type `name` -/
def readNatural (name : String) : Reader UInt64
  | .number n => do
    match ← ofForm n.check with
    | .natural n => return n
    | .negative m => throw (.content (.wrongValue (.number (.negative m)) name))
    | .double x => throw (.content (.wrongType (.number (.double x)) name))
  | d => d.refuse name

def readWord : Reader UInt64 := readNatural "u64"

def readPosition : Reader UInt64 := readNatural "usize"

def readBool : Reader Bool
  | .bool b => .ok b
  | d => d.refuse "a boolean"

def readText (expected : String) : Reader String
  | .text t => ofForm t.decode
  | d => d.refuse expected

def readString : Reader String := readText "a string"

def ofHex {α : Type} : Except Hex.Fault α → Except Problem α
  | .ok a => .ok a
  | .error f => .error (.content (.hex f))

def readBytes : Reader Bytes := fun d => do
  let s ← readString d
  ofHex (Hex.decode s)

def readDigest : Reader Digest := fun d => do
  let s ← readString d
  ofHex (Digest.ofHex s)

/-- a digest, or none: `null` or the empty text -/
def readDigest? : Reader (Option Digest)
  | .null => .ok none
  | d => do
    let s ← readString d
    if s = "" then return none
    let h ← ofHex (Digest.ofHex s)
    return some h

def readInstant : Reader Instant := fun d => do
  let s ← readText "an RFC 3339 formatted date and time string" d
  match Rfc3339.read s with
  | .ok t => return t
  | .error f => throw (.content (.instant f))

/-! ## lists -/

def readItems {α : Type} (r : Reader α) : List Doc → Except Problem (List α)
  | [] => .ok []
  | d :: ds => do
    let a ← r d
    let rest ← readItems r ds
    return a :: rest

def readList {α : Type} (r : Reader α) : Reader (List α)
  | .array items e => do
    let as ← readItems r items
    ofForm e.check
    return as
  | d => d.refuse "a sequence"

/-! ## names out of a list -/

def variantNamed {α : Type} (known : List (String × α)) (name : String) : Except Problem α :=
  match known.find? (·.1 = name) with
  | some v => .ok v.2
  | none => .error (.content (.unknownVariant name (known.map (·.1))))

def readUnit : Reader Unit
  | .null => .ok ()
  | d => d.refuse "unit"

/-- One of the known names, in a text: by itself, or as the only name of an object, with the value
`null`. -/
def readVariant {α : Type} (known : List (String × α)) : Reader α
  | .text t => do
    let name ← ofForm t.decode
    variantNamed known name
  | .object ((t, d) :: rest) e => do
    let name ← ofForm t.decode
    let v ← variantNamed known name
    readUnit d
    match rest, e with
    | [], .closed => return v
    | [], .cut e => throw (.form e)
    | _, _ => throw (.form .malformed)
  | .object [] (.noName e) => .error (.form e)
  | .object [] (.cut e) => .error (.form e)
  | .fault e => .error (.form e)
  | _ => .error (.form .malformed)

/-! ## whole texts -/

/-- reads a text; there must be nothing after the value -/
def readFrom {α : Type} (r : Reader α) (bs : Bytes) : Except Problem α := do
  let (d, trailing) := readDoc bs
  let a ← r d
  if trailing then throw (.form .malformed)
  return a

def readValue {α : Type} (r : Reader α) (v : Value) : Except Problem α := r v.toDoc

/-- any value, with its fields sorted, in which at most `room` containers may be nested -/
def readAny (room : Nat) : Reader Value := fun d => do
  let v ← ofForm (d.value? room)
  return v.sorted

end ChunkLedger.Json
