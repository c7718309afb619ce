import Morgan.Lib.AssocMap
import Morgan.Interface.Transaction

/-!
# The gossip table

`propagationValue.rs` and `connectionInfoTable.rs`: a node replicates signed values of three
kinds, each under the label of its kind and its signer's key.  The table (`Crds`) keeps one
version of each label, in insertion order, and replaces it only by a greater version: a later
wallclock, or the same wallclock and a greater value hash.

The value hash is the hash of the value's serialization; both are outside the model, and the
hash enters as the function `valueHash`.  A contact info keeps the addresses that the modelled
handlers read, its gossip address only.
-/

namespace Morgan

namespace Gossip

/-- `SocketAddr`: the bytes of the IP address (four or sixteen) and the port. -/
structure SocketAddr where
  ip : List UInt8
  port : UInt16
  deriving DecidableEq, Repr

/-- `ip().is_unspecified()`: the address of all zero bytes. -/
def SocketAddr.isUnspecified (a : SocketAddr) : Bool := a.ip.all (· == 0)

/-- `ContactInfo`. -/
structure ContactInfo where
  id : Pubkey
  signature : Signature
  gossip : SocketAddr
  wallclock : UInt64
  deriving DecidableEq, Repr

/-- `Vote`, the gossip record of a vote transaction. -/
structure Vote where
  «from» : Pubkey
  transaction : Transaction
  signature : Signature
  wallclock : UInt64
  deriving DecidableEq, Repr

/-- `EpochSlots`; the `BTreeSet` of slots is its sorted list. -/
structure EpochSlots where
  «from» : Pubkey
  root : UInt64
  slots : List UInt64
  signature : Signature
  wallclock : UInt64
  deriving DecidableEq, Repr

/-- `CrdsValue`. -/
inductive CrdsValue where
  | contactInfo (contactInfo : ContactInfo)
  | vote (vote : Vote)
  | epochSlots (epochSlots : EpochSlots)
  deriving DecidableEq, Repr

/-- `CrdsValueLabel`. -/
inductive CrdsValueLabel where
  | contactInfo (pubkey : Pubkey)
  | vote (pubkey : Pubkey)
  | epochSlots (pubkey : Pubkey)
  deriving DecidableEq, Repr

/-- `CrdsValueLabel::pubkey`. -/
def CrdsValueLabel.pubkey : CrdsValueLabel → Pubkey
  | .contactInfo p | .vote p | .epochSlots p => p

namespace CrdsValue

/-- `wallclock`. -/
def wallclock : CrdsValue → UInt64
  | .contactInfo info => info.wallclock
  | .vote v => v.wallclock
  | .epochSlots slots => slots.wallclock

/-- `label`. -/
def label : CrdsValue → CrdsValueLabel
  | .contactInfo info => .contactInfo info.id
  | .vote v => .vote v.from
  | .epochSlots slots => .epochSlots slots.from

/-- `contact_info`. -/
def contactInfo? : CrdsValue → Option ContactInfo
  | .contactInfo info => some info
  | _ => none

/-- `record_labels`. -/
def recordLabels (key : Pubkey) : List CrdsValueLabel :=
  [.contactInfo key, .vote key, .epochSlots key]

end CrdsValue

/-- `VersionedCrdsValue`. -/
structure VersionedCrdsValue where
  value : CrdsValue
  insertTimestamp : UInt64
  localTimestamp : UInt64
  valueHash : Hash
  deriving DecidableEq, Repr

/-- The derived order of `Hash`: its bytes, lexicographically. -/
def Hash.lt (a b : Hash) : Bool := decide (a.bytes.toList < b.bytes.toList)

namespace VersionedCrdsValue

/-- `VersionedCrdsValue::new`. -/
def new (valueHash : CrdsValue → Hash) (localTimestamp : UInt64) (value : CrdsValue) :
    VersionedCrdsValue :=
  ⟨value, localTimestamp, localTimestamp, valueHash value⟩

/-- `self > other` by `partial_cmp`: values of different labels are not ordered. -/
def gt (self other : VersionedCrdsValue) : Bool :=
  if self.value.label ≠ other.value.label then false
  else if self.value.wallclock = other.value.wallclock then Hash.lt other.valueHash self.valueHash
  else decide (other.value.wallclock < self.value.wallclock)

end VersionedCrdsValue

/-- `CrdsError`. -/
inductive CrdsError where
  | insertFailed
  deriving DecidableEq, Repr

/-- `Crds`: the `IndexMap` of labels to versions. -/
structure Crds where
  table : AssocMap CrdsValueLabel VersionedCrdsValue

namespace Crds

variable (valueHash : CrdsValue → Hash)

/-- `Crds::default()`. -/
def empty : Crds := ⟨[]⟩

/-- `insert_versioned`: the old version when the new one replaced it. -/
def insertVersioned (crds : Crds) (newValue : VersionedCrdsValue) :
    Except CrdsError (Option VersionedCrdsValue) × Crds :=
  let label := newValue.value.label
  let current := crds.table.get? label
  let doInsert := (current.map fun current => newValue.gt current).getD true
  if doInsert then (.ok current, ⟨crds.table.insert label newValue⟩)
  else (.error .insertFailed, crds)

/-- `insert`. -/
def insert (crds : Crds) (value : CrdsValue) (localTimestamp : UInt64) :
    Except CrdsError (Option VersionedCrdsValue) × Crds :=
  crds.insertVersioned (VersionedCrdsValue.new valueHash localTimestamp value)

/-- `lookup`. -/
def lookup (crds : Crds) (label : CrdsValueLabel) : Option CrdsValue :=
  (crds.table.get? label).map (·.value)

/-- `update_label_timestamp`. -/
def updateLabelTimestamp (crds : Crds) (id : CrdsValueLabel) (now : UInt64) : Crds :=
  ⟨crds.table.modify id fun e => { e with localTimestamp := max e.localTimestamp now }⟩

/-- `update_record_timestamp`. -/
def updateRecordTimestamp (crds : Crds) (pubkey : Pubkey) (now : UInt64) : Crds :=
  (CrdsValue.recordLabels pubkey).foldl (fun crds label => crds.updateLabelTimestamp label now) crds

end Crds

end Gossip

end Morgan
