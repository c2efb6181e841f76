import ChunkLedger.Json.Record

/-!
# Peers

A registry of known peers, one entry per identifier.  A second peer with the identifier of a known
one is refused.  The snapshot lists all peers, the oldest connection first, and of connections made
at the same time the smaller identifier.
-/

namespace ChunkLedger.Wire

structure Peer where
  id : String
  address : String
  connectedAt : Instant
deriving DecidableEq

namespace Peer

inductive Field where
  | id | address | connectedAt
deriving DecidableEq

@[reducible] def Field.Content : Field → Type
  | .id => String
  | .address => String
  | .connectedAt => Instant

def layout : Json.Layout Field Field.Content where
  name := "PeerInfo"
  keys := [.id, .address, .connectedAt]
  mem_keys k := by cases k <;> decide
  label
    | .id => "peerId"
    | .address => "address"
    | .connectedAt => "connectedAt"
  read
    | .id => Json.readString
    | .address => Json.readString
    | .connectedAt => Json.readInstant
  absent _ := none

def read (src : Json.Source) : Json.Reader Peer := fun d => do
  let f ← layout.readRecord src d
  return ⟨f .id, f .address, f .connectedAt⟩

def toValue (p : Peer) : Json.Value :=
  .object [
    ("peerId", .text p.id),
    ("address", .text p.address),
    ("connectedAt", .text (Rfc3339.render p.connectedAt))]

/-- connected earlier; at the same time, not with a greater identifier -/
def le (p q : Peer) : Bool :=
  if p.connectedAt = q.connectedAt then !(q.id < p.id) else p.connectedAt.le q.connectedAt

end Peer

/-- the known peers, in no order that matters -/
structure Registry where
  peers : List Peer
deriving DecidableEq

namespace Registry

def empty : Registry := ⟨[]⟩

def find? (r : Registry) (id : String) : Option Peer := r.peers.find? (·.id = id)

def contains (r : Registry) (id : String) : Bool := (r.find? id).isSome

/-- adds a peer unless its identifier is known; tells whether it did -/
def add (r : Registry) (p : Peer) : Registry × Bool :=
  if r.contains p.id then (r, false) else (⟨p :: r.peers⟩, true)

def remove (r : Registry) (id : String) : Registry × Option Peer :=
  (⟨r.peers.filter (·.id ≠ id)⟩, r.find? id)

def size (r : Registry) : Nat := r.peers.length

/-- all peers, the oldest connection first -/
def snapshot (r : Registry) : List Peer := r.peers.mergeSort Peer.le

@[simp] theorem find?_empty (id : String) : empty.find? id = none := rfl

theorem find?_cons (p : Peer) (ps : List Peer) (id : String) :
    find? ⟨p :: ps⟩ id = if p.id = id then some p else find? ⟨ps⟩ id := by
  simp only [find?, List.find?_cons]
  by_cases h : p.id = id <;> simp [h]

end Registry

end ChunkLedger.Wire
