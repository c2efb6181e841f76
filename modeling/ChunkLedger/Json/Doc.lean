import ChunkLedger.Json.Token
import ChunkLedger.Json.Value

/-!
# JSON documents

A document is the tree of a text that may be spoilt somewhere.  Tokens are gathered into it one by
one (`Stage.step`), with a stack of open containers, so it always exists; the first fault in
reading order stands in the tree at the place where it occurs, and nothing after it is read.  A
reader of the document then finds faults of the text and faults of its own (an unknown name, a
number where a text is wanted) in one order, that of the text.

There are two general readers: `Doc.skip` only looks for faults of the form, and `Doc.value?` yields
a value, with a bound on the number of nested containers.  `Value.toDoc` makes a document of a
value.
-/

namespace ChunkLedger.Json

/-- How the list of items or fields of a container ends. -/
inductive Ending where
  | closed
  /-- neither a comma nor the closing bracket follows -/
  | cut (e : Break)
  /-- no name follows where a field has to begin -/
  | noName (e : Break)

inductive Doc where
  | null
  | bool (b : Bool)
  | number (n : NumberToken)
  | text (t : RawText)
  | array (items : List Doc) (ending : Ending)
  | object (fields : List (RawText × Doc)) (ending : Ending)
  | brokenWord (e : Break)
  /-- there is no value where one has to be -/
  | fault (e : Break)

/-! ## gathering tokens -/

/-- an open container around the value being read; what it holds so far, last first -/
inductive Frame where
  | items (done : List Doc)
  | field (done : List (RawText × Doc)) (name : RawText)

/-- the container, with `d` as its last element -/
def Frame.enclose (d : Doc) (e : Ending) : Frame → Doc
  | .items done => .array (d :: done).reverse e
  | .field done name => .object ((name, d) :: done).reverse e

/-- the document, when no more is read -/
def abandon (d : Doc) (outer : List Frame) : Doc :=
  outer.foldl (fun d f => f.enclose d (.cut .ended)) d

/-- What may follow. -/
inductive Stage where
  | value (outer : List Frame)
  /-- the first item of an array, or its end -/
  | item (outer : List Frame)
  /-- a name; the end of the object if there is no field yet -/
  | name (done : List (RawText × Doc)) (outer : List Frame)
  | colon (done : List (RawText × Doc)) (name : RawText) (outer : List Frame)
  /-- a comma or the end of the innermost container; nothing if there is none -/
  | filled (d : Doc) (outer : List Frame)
  /-- nothing is read any more, because of a fault -/
  | broken (d : Doc)
  /-- nothing is read any more, because the document was complete -/
  | trailing (d : Doc)

namespace Stage

def begin (outer : List Frame) : Token → Stage
  | .openArray => .item outer
  | .openObject => .name [] outer
  | .null => .filled .null outer
  | .bool b => .filled (.bool b) outer
  | .number n => .filled (.number n) outer
  | .text t => .filled (.text t) outer
  | .brokenWord e => .broken (abandon (.brokenWord e) outer)
  | .closeArray | .closeObject | .comma | .colon | .stray =>
    .broken (abandon (.fault .malformed) outer)

/-- after a value `d` in the container `f` -/
def afterItem (d : Doc) (f : Frame) (outer : List Frame) (t : Token) : Stage :=
  match f, t with
  | .items done, .comma => .value (.items (d :: done) :: outer)
  | .items _, .closeArray => .filled (f.enclose d .closed) outer
  | .field done n, .comma => .name ((n, d) :: done) outer
  | .field _ _, .closeObject => .filled (f.enclose d .closed) outer
  | f, _ => .broken (abandon (f.enclose d (.cut .malformed)) outer)

def step : Stage → Token → Stage
  | .value outer, t => begin outer t
  | .item outer, .closeArray => .filled (.array [] .closed) outer
  | .item outer, t => begin (.items [] :: outer) t
  | .name done outer, .text n => .colon done n outer
  | .name [] outer, .closeObject => .filled (.object [] .closed) outer
  | .name done outer, _ => .broken (abandon (.object done.reverse (.noName .malformed)) outer)
  | .colon done n outer, .colon => .value (.field done n :: outer)
  | .colon done n outer, _ => .broken (abandon (.fault .malformed) (.field done n :: outer))
  | .filled d [], _ => .trailing d
  | .filled d (f :: outer), t => afterItem d f outer t
  | .broken d, _ => .broken d
  | .trailing d, _ => .trailing d

/-- the document when the tokens end -/
def finish : Stage → Doc
  | .value outer => abandon (.fault .ended) outer
  | .item outer => abandon (.array [] (.cut .ended)) outer
  | .name done outer => abandon (.object done.reverse (.noName .ended)) outer
  | .colon done n outer => abandon (.fault .ended) (.field done n :: outer)
  | .filled d outer => abandon d outer
  | .broken d => d
  | .trailing d => d

def isTrailing : Stage → Bool
  | .trailing _ => true
  | _ => false

def run (s : Stage) (ts : List Token) : Stage := ts.foldl step s

@[simp] theorem run_nil (s : Stage) : s.run [] = s := rfl

end Stage

/-- A text read as a document, and whether there is anything after it. -/
def readDoc (bs : Bytes) : Doc × Bool :=
  let s := Stage.run (.value []) (tokens bs)
  (s.finish, s.isTrailing)

/-! ## reading documents -/

def Ending.check : Ending → Except Break Unit
  | .closed => .ok ()
  | .cut e => .error e
  | .noName e => .error e

namespace NumberToken

def check : NumberToken → Except Break Number
  | .number n => .ok n
  | .notFinite => .error .malformed
  | .cut atEnd => .error (if atEnd then .ended else .malformed)

end NumberToken

namespace Doc

mutual

/-- looks for faults of the form; texts need not be valid UTF-8, and numbers may be of any size -/
def skip : Doc → Except Break Unit
  | .null => .ok ()
  | .bool _ => .ok ()
  | .number (.cut _) => .error .malformed
  | .number _ => .ok ()
  | .text ⟨_, some e⟩ => .error e
  | .text ⟨_, none⟩ => .ok ()
  | .array items e => do
    skipItems items
    e.check
  | .object fields e => do
    skipFields fields
    e.check
  | .brokenWord e => .error e
  | .fault e => .error e

def skipItems : List Doc → Except Break Unit
  | [] => .ok ()
  | d :: ds => do
    d.skip
    skipItems ds

def skipFields : List (RawText × Doc) → Except Break Unit
  | [] => .ok ()
  | (⟨_, some e⟩, _) :: _ => .error e
  | (⟨_, none⟩, d) :: fs => do
    d.skip
    skipFields fs

end

mutual

/-- the value, in which at most `room` containers may be nested; its fields stand as written -/
def value? (room : Nat) : Doc → Except Break Value
  | .null => .ok .null
  | .bool b => .ok (.bool b)
  | .number n => n.check.map .number
  | .text t => t.decode.map .text
  | .array items e =>
    match room with
    | 0 => .error .malformed
    | room+1 => do
      let vs ← itemValues room items
      e.check
      return .array vs
  | .object fields e =>
    match room with
    | 0 => .error .malformed
    | room+1 => do
      let fs ← fieldValues room fields
      e.check
      return .object fs
  | .brokenWord e => .error e
  | .fault e => .error e

def itemValues (room : Nat) : List Doc → Except Break (List Value)
  | [] => .ok []
  | d :: ds => do
    let v ← d.value? room
    let vs ← itemValues room ds
    return v :: vs

def fieldValues (room : Nat) : List (RawText × Doc) → Except Break (List (String × Value))
  | [] => .ok []
  | (n, d) :: fs => do
    let n ← n.decode
    let v ← d.value? room
    let fs ← fieldValues room fs
    return (n, v) :: fs

end

end Doc

/-! ## documents of values -/

namespace Value

mutual

def toDoc : Value → Doc
  | .null => .null
  | .bool b => .bool b
  | .number n => .number (.number n)
  | .text s => .text (.ofString s)
  | .array items => .array (itemDocs items) .closed
  | .object fields => .object (fieldDocs fields) .closed

def itemDocs : List Value → List Doc
  | [] => []
  | v :: vs => v.toDoc :: itemDocs vs

def fieldDocs : List (String × Value) → List (RawText × Doc)
  | [] => []
  | (n, v) :: fs => (.ofString n, v.toDoc) :: fieldDocs fs

end

end Value

end ChunkLedger.Json
