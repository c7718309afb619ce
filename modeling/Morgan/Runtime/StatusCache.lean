import Morgan.Lib.AssocMap
import Morgan.Runtime.AccountsDb

/-!
# The blockhash queue and the status cache

`blockhash_queue.rs` and `status_cache.rs` carry replay protection.  A bank accepts a transaction
only while its recent blockhash is at most `max_age` hash registrations old in the bank's own
queue, and only when the status cache holds no status of its first signature under that blockhash
in a fork the bank sees.  Every bank has its own copy of the queue; all banks share one status
cache.

The cache keys a signature by 20 of its bytes, from an offset drawn at random when the
blockhash's entry is created; the draw is an argument of `insert`.  It forgets the entries whose
greatest fork is at most the smallest root, once there are more than `MAX_CACHE_ENTRIES` roots.
The queue's timestamps only serve `hash_height_to_timestamp`, which is not modelled.
-/

namespace Morgan

/-- `MAX_HASH_AGE_IN_SECONDS`. -/
def MAX_HASH_AGE_IN_SECONDS : Nat := 120

/-- `MAX_RECENT_BLOCKHASHES`. -/
def MAX_RECENT_BLOCKHASHES : Nat := MAX_HASH_AGE_IN_SECONDS

/-- `MAX_CACHE_ENTRIES`. -/
def MAX_CACHE_ENTRIES : Nat := MAX_HASH_AGE_IN_SECONDS

/-- `CACHED_SIGNATURE_SIZE`. -/
def CACHED_SIGNATURE_SIZE : Nat := 20

/-- `BlockhashQueue`: each hash with the hash height at which it was registered. -/
structure BlockhashQueue where
  hashHeight : UInt64
  lastHash : Option Hash
  ages : AssocMap Hash UInt64
  maxAge : Nat

namespace BlockhashQueue

/-- `BlockhashQueue::new`. -/
def new (maxAge : Nat) : BlockhashQueue := ⟨0, none, [], maxAge⟩

/-- `check_age`. -/
def checkAge (hashHeight : UInt64) (maxAge : Nat) (age : UInt64) : Bool :=
  hashHeight - age ≤ UInt64.ofNat maxAge

/-- `check_hash_age`. -/
def checkHashAge (q : BlockhashQueue) (hash : Hash) (maxAge : Nat) : Bool :=
  match q.ages.get? hash with
  | some age => checkAge q.hashHeight maxAge age
  | none => false

/-- `genesis_hash`. -/
def genesisHash (q : BlockhashQueue) (hash : Hash) : BlockhashQueue :=
  { q with ages := q.ages.set hash 0, lastHash := some hash }

/-- `register_hash`. -/
def registerHash (q : BlockhashQueue) (hash : Hash) : BlockhashQueue :=
  let hashHeight := q.hashHeight + 1
  let ages : AssocMap Hash UInt64 :=
    if q.ages.length ≥ q.maxAge then q.ages.filter (checkAge hashHeight q.maxAge ·.2) else q.ages
  { q with hashHeight, ages := AssocMap.set ages hash hashHeight, lastHash := some hash }

end BlockhashQueue

/-- `SignatureSlice`: the bytes of a signature the cache keys on. -/
abbrev SignatureSlice := List UInt8

/-- The bytes of a signature from an offset, `sig.as_ref()[index..index + CACHED_SIGNATURE_SIZE]`. -/
def signatureSlice (sig : Signature) (index : Nat) : SignatureSlice :=
  (sig.bytes.toList.drop index).take CACHED_SIGNATURE_SIZE

/-- The entry of a blockhash, `(ForkId, usize, SignatureMap<T>)`: the greatest fork that inserted
under it, the offset of its signature slices, and the statuses of each slice by fork. -/
structure StatusEntry (T : Type) where
  fork : Fork
  index : Fin 12
  sigMap : AssocMap SignatureSlice (List (Fork × T))

/-- `StatusCache<T>`. -/
structure StatusCache (T : Type) where
  cache : AssocMap Hash (StatusEntry T)
  roots : List Fork

namespace StatusCache

variable {T : Type}

/-- `StatusCache::default()`. -/
def empty : StatusCache T := ⟨[], []⟩

/-- `get_signature_status`: the first status in a fork that is an ancestor or a root. -/
def getSignatureStatus (sc : StatusCache T) (sig : Signature) (transactionBlockhash : Hash)
    (ancestors : Ancestors) : Option (Fork × T) := do
  let entry ← sc.cache.get? transactionBlockhash
  let storedForks ← entry.sigMap.get? (signatureSlice sig entry.index)
  storedForks.find? fun e => (ancestors.lookup e.1).isSome || e.1 ∈ sc.roots

/-- `add_root`. -/
def addRoot (sc : StatusCache T) (fork : Fork) : StatusCache T :=
  let roots := sc.roots.insert fork
  if roots.length > MAX_CACHE_ENTRIES then
    match roots.min? with
    | some min => ⟨sc.cache.filter fun e => e.2.fork > min, roots.erase min⟩
    | none => { sc with roots }
  else { sc with roots }

/-- `insert`, with `draw` the offset drawn by `gen_range(0, 12)`, used for a new entry. -/
def insert (sc : StatusCache T) (transactionBlockhash : Hash) (sig : Signature) (fork : Fork)
    (res : T) (draw : Fin 12) : StatusCache T :=
  let entry := (sc.cache.get? transactionBlockhash).getD ⟨fork, draw, []⟩
  let slice := signatureSlice sig entry.index
  let forks := (entry.sigMap.get? slice).getD []
  let entry : StatusEntry T :=
    ⟨max fork entry.fork, entry.index, entry.sigMap.set slice (forks ++ [(fork, res)])⟩
  { sc with cache := sc.cache.set transactionBlockhash entry }

end StatusCache

end Morgan
