import Mathlib
import Morgan.Lib.Sha256
import Morgan.Lib.Machine
import Morgan.Interface.Basic

/-!
# The proof-of-history generator

`waterClock.rs`: `Poh` hashes a running hash over and over.  `hash` takes up to a given number of
hashes, stopping one short of the tick; `record` mixes a hash in and emits an entry; `tick` takes
one more hash and emits an entry when the tick's count is reached, or always when the count is
unbounded (`u64::MAX`).  An entry carries the hashes since the last one and the hash reached.

The calls in any order are `PohOp`s, run one after another by `Machine.run` with `Poh.step`,
which collects the entries emitted, each with the mixin of a record; `Poh.verify` replays them as
the module's tests do.  The hashes are SHA-256 (`hash.rs`); `none` is a panic.
-/

namespace Morgan

/-! ## Hashes -/

/-- `hashv`: the hash of the values one after another. -/
def hashv (vals : List (List UInt8)) : Hash := ⟨Sha256.hash vals.flatten⟩

/-- `hash`. -/
def hash (val : List UInt8) : Hash := hashv [val]

/-- `n` times the hash of the hash before: the loops of `Poh::hash` and of the tests' `verify`. -/
def rehash (n : Nat) (h : Hash) : Hash := (fun h : Hash => hash h.bytes.toList)^[n] h

/-! ## The generator -/

/-- `Poh`: the running hash, the hashes since the last entry, the hashes of a tick and those left
of it.  The counts are `u64`s; a generator keeps at least one hash left, so none of its
subtractions wraps. -/
structure Poh where
  hash : Hash
  numHashes : Nat
  hashesPerTick : Nat
  remainingHashes : Nat

/-- `PohEntry`. -/
structure PohEntry where
  numHashes : Nat
  hash : Hash

namespace Poh

/-- `Poh::new`: a tick of `u64::MAX` hashes when none is given; `none` is the panic of its
assertion. -/
def new (hash : Hash) (hashesPerTick : Option Nat) : Option Poh :=
  let hashesPerTick := hashesPerTick.getD (2 ^ 64 - 1)
  if 1 < hashesPerTick then some ⟨hash, 0, hashesPerTick, hashesPerTick⟩ else none

/-- `Poh::reset`: a new generator in place of the old. -/
def reset (_ : Poh) (hash : Hash) (hashesPerTick : Option Nat) : Option Poh :=
  Poh.new hash hashesPerTick

/-- `Poh::hash`: up to `max_num_hashes` hashes, stopping one short of the tick, and whether the tick
is due; `none` is the panic of its assertion. -/
def hashN (poh : Poh) (maxNumHashes : Nat) : Option (Poh × Bool) :=
  let numHashes := min (poh.remainingHashes - 1) maxNumHashes
  let poh := { poh with
    hash := rehash numHashes poh.hash
    numHashes := poh.numHashes + numHashes
    remainingHashes := poh.remainingHashes - numHashes }
  if 0 < poh.remainingHashes then some (poh, poh.remainingHashes == 1) else none

/-- `Poh::record`: the mixin hashed in, ending an entry; no entry when only the tick's hash is
left. -/
def record (poh : Poh) (mixin : Hash) : Poh × Option PohEntry :=
  if poh.remainingHashes = 1 then (poh, none)
  else
    let hash := hashv [poh.hash.bytes.toList, mixin.bytes.toList]
    ({ poh with hash, numHashes := 0, remainingHashes := poh.remainingHashes - 1 },
      some ⟨poh.numHashes + 1, hash⟩)

/-- `Poh::tick`: one more hash, which ends the tick when its count is reached or unbounded. -/
def tick (poh : Poh) : Poh × Option PohEntry :=
  let hash := Morgan.hash poh.hash.bytes.toList
  let numHashes := poh.numHashes + 1
  let remainingHashes := poh.remainingHashes - 1
  if poh.hashesPerTick < 2 ^ 64 - 1 ∧ remainingHashes ≠ 0 then
    ({ poh with hash, numHashes, remainingHashes }, none)
  else
    ({ poh with hash, numHashes := 0, remainingHashes := poh.hashesPerTick },
      some ⟨numHashes, hash⟩)

end Poh

/-! ## Runs -/

/-- A call on the generator. -/
inductive PohOp where
  | hash (maxNumHashes : Nat)
  | record (mixin : Hash)
  | tick

/-- One call, with the entry it emits and the mixin of a record. -/
def Poh.step (poh : Poh) : PohOp → Option (Poh × List (PohEntry × Option Hash))
  | .hash maxNumHashes => (poh.hashN maxNumHashes).map fun r => (r.1, [])
  | .record mixin => some ((poh.record mixin).1, ((poh.record mixin).2.map (·, some mixin)).toList)
  | .tick => some (poh.tick.1, (poh.tick.2.map (·, none)).toList)

theorem Poh.step_hash (poh : Poh) (maxNumHashes : Nat) :
    poh.step (.hash maxNumHashes) = (poh.hashN maxNumHashes).map fun r => (r.1, []) := rfl

theorem Poh.step_record (poh : Poh) (mixin : Hash) :
    poh.step (.record mixin) =
      some ((poh.record mixin).1, ((poh.record mixin).2.map (·, some mixin)).toList) := rfl

theorem Poh.step_tick (poh : Poh) :
    poh.step .tick = some (poh.tick.1, (poh.tick.2.map (·, none)).toList) := rfl

/-- The tests' `verify`: each entry replayed from the hash before it, `num_hashes - 1` hashes and
then the mixin's hash or a plain one; `none` is the panic of its `assert_ne!`. -/
def Poh.verify (initialHash : Hash) : List (PohEntry × Option Hash) → Option Bool
  | [] => some true
  | (entry, mixin) :: entries =>
    if entry.numHashes = 0 then none
    else
      let current := rehash (entry.numHashes - 1) initialHash
      let current := match mixin with
        | some mixin => hashv [current.bytes.toList, mixin.bytes.toList]
        | none => Morgan.hash current.bytes.toList
      if current ≠ entry.hash then some false else Poh.verify entry.hash entries

theorem Poh.verify_nil (initialHash : Hash) : Poh.verify initialHash [] = some true := rfl

theorem Poh.verify_cons (initialHash : Hash) (entry : PohEntry) (mixin : Option Hash)
    (entries : List (PohEntry × Option Hash)) :
    Poh.verify initialHash ((entry, mixin) :: entries) =
      if entry.numHashes = 0 then none
      else if (match mixin with
          | some mixin =>
            hashv [(rehash (entry.numHashes - 1) initialHash).bytes.toList, mixin.bytes.toList]
          | none => Morgan.hash (rehash (entry.numHashes - 1) initialHash).bytes.toList) ≠
          entry.hash then some false
      else Poh.verify entry.hash entries := rfl

end Morgan
