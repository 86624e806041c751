/-
  Gink.Proto.Builders — the protobuf messages a bundle is made of (proto/*.proto).

  A message is a structure with one field per protobuf field; an unset scalar has
  its default, an optional submessage is an `Option`, and each `oneof` is an
  inductive type.  The accessors at the end read a `oneof` the way the generated
  Python classes do: the member that is set, or the default of an unset one.
-/
import Gink.Proto.Keys

namespace Gink

/-- A `uint64` field. -/
abbrev U64 := Fin (2 ^ 64)

instance neZeroU64 : NeZero (2 ^ 64) := ⟨by decide⟩

/-- behavior.proto; proto3 enums are open, so any other code may arrive too. -/
inductive Behavior where
  | unspecified
  | box
  | sequence
  | pairMap
  | directory
  | keySet
  | group
  | vertex
  | pairSet
  | eventType
  | property
  | edgeType
  | table
  | braid
  | accumulator
  | unrecognized (code : Int)
  deriving DecidableEq, Repr

/-- The enum's number. -/
def Behavior.code : Behavior → Int
  | .unspecified => 0
  | .box => 1
  | .sequence => 2
  | .pairMap => 3
  | .directory => 4
  | .keySet => 5
  | .group => 6
  | .vertex => 7
  | .pairSet => 8
  | .eventType => 9
  | .property => 10
  | .edgeType => 11
  | .table => 12
  | .braid => 13
  | .accumulator => 14
  | .unrecognized n => n

/-- The enum member with a number. -/
def behaviorOfCode (code : Int) : Behavior :=
  match code with
  | 0 => .unspecified
  | 1 => .box
  | 2 => .sequence
  | 3 => .pairMap
  | 4 => .directory
  | 5 => .keySet
  | 6 => .group
  | 7 => .vertex
  | 8 => .pairSet
  | 9 => .eventType
  | 10 => .property
  | 11 => .edgeType
  | 12 => .table
  | 13 => .braid
  | 14 => .accumulator
  | n => .unrecognized n

/-- muid.proto: a reference, zero fields meaning "same as the context". -/
structure MuidBuilder where
  timestamp : Int := 0
  medallion : Int := 0
  offset : Int := 0
  deriving DecidableEq, Repr, Inhabited

/-- pair.proto. -/
structure Pair where
  left : MuidBuilder := {}
  rite : MuidBuilder := {}
  deriving DecidableEq, Repr, Inhabited

/-- value.proto: the member of the `oneof` that is set, if any.  A double is kept
as its 64 bits. -/
inductive ValueBuilder where
  | unset
  | integer (digits : String)
  | floating (bits : U64)
  | characters (s : String)
  | special (code : Int)
  | timestamp (micros : Int)
  | document (keys : List (Option UserKey)) (values : List ValueBuilder)
  | tuple (values : List ValueBuilder)
  | octets (b : Bytes)
  deriving Repr, Inhabited

/-- `oneof subject` of an entry. -/
inductive Subject where
  | key (key : Option UserKey)
  | pair (pair : Pair)
  | describing (describing : MuidBuilder)
  deriving DecidableEq, Repr

/-- `oneof contains` of an entry. -/
inductive Contains where
  | value (value : ValueBuilder)
  | deletion (deletion : Bool)
  | pointee (pointee : MuidBuilder)
  deriving Repr

/-- entry.proto. -/
structure EntryBuilder where
  container : Option MuidBuilder := none
  behavior : Behavior := .unspecified
  subject : Option Subject := none
  contains : Option Contains := none
  expiry : U64 := 0
  effective : Int := 0
  purge : Bool := false
  deriving Repr, Inhabited

/-- container.proto. -/
structure ContainerBuilder where
  behavior : Behavior := .unspecified
  deriving DecidableEq, Repr, Inhabited

/-- movement.proto. -/
structure MovementBuilder where
  container : MuidBuilder := {}
  entry : MuidBuilder := {}
  dest : Int := 0
  purge : Bool := false
  deriving DecidableEq, Repr, Inhabited

/-- clearance.proto. -/
structure ClearanceBuilder where
  container : MuidBuilder := {}
  purge : Bool := false
  deriving DecidableEq, Repr, Inhabited

/-- change.proto: the member of the `oneof` that is set, if any. -/
inductive ChangeBuilder where
  | unset
  | container (container : ContainerBuilder)
  | entry (entry : EntryBuilder)
  | movement (movement : MovementBuilder)
  | clearance (clearance : ClearanceBuilder)
  deriving Repr

/-- bundle.proto. -/
structure BundleBuilder where
  identity : String := ""
  changes : List ChangeBuilder := []
  verifyKey : Bytes := []
  timestamp : U64 := 0
  chainStart : U64 := 0
  medallion : U64 := 0
  previous : U64 := 0
  priorHash : Bytes := []
  keyId : U64 := 0
  encrypted : Bytes := []
  comment : String := ""
  deriving Repr, Inhabited

/-- claim.proto. -/
structure ClaimBuilder where
  medallion : U64
  chainStart : U64
  processId : U64
  claimTime : U64
  deriving DecidableEq, Repr

/-! ## Reading an entry's fields. -/

namespace EntryBuilder

/-- `builder.container` (the default message when unset). -/
def containerField (e : EntryBuilder) : MuidBuilder := e.container.getD {}

/-- `decode_key(builder)`. -/
def key (e : EntryBuilder) : Option UserKey :=
  match e.subject with
  | some (.key k) => k
  | _ => none

/-- `builder.HasField("pair")`, with the pair. -/
def pair? (e : EntryBuilder) : Option Pair :=
  match e.subject with
  | some (.pair p) => some p
  | _ => none

/-- `builder.HasField("describing")`, with the reference. -/
def describing? (e : EntryBuilder) : Option MuidBuilder :=
  match e.subject with
  | some (.describing m) => some m
  | _ => none

/-- `builder.HasField("value")`, with the value. -/
def value? (e : EntryBuilder) : Option ValueBuilder :=
  match e.contains with
  | some (.value v) => some v
  | _ => none

/-- `builder.HasField("pointee")`, with the reference. -/
def pointee? (e : EntryBuilder) : Option MuidBuilder :=
  match e.contains with
  | some (.pointee m) => some m
  | _ => none

/-- `builder.HasField("deletion")`. -/
def hasDeletion (e : EntryBuilder) : Bool :=
  match e.contains with
  | some (.deletion _) => true
  | _ => false

/-- `builder.deletion`. -/
def deletion (e : EntryBuilder) : Bool :=
  match e.contains with
  | some (.deletion d) => d
  | _ => false

end EntryBuilder

end Gink
