import Morgan.Lib.AssocMap
import Morgan.Interface.Account

/-!
# The accounts database

`accounts_db.rs` and `accounts_index.rs`: every bank of a validator shares one database.  A store
appends accounts to the storage of a fork and records, for each key, the version written in that
fork; a bank loads the version of the greatest fork among its ancestors and the roots.  Storing
again in a fork replaces that fork's version, and a store drops the key's versions of forks below
the last root.

Storage entries, offsets and write versions only carry the index's choice of version; the model
keeps the version itself.  The reclaiming of dead storage removes a fork from the roots once no
version of it is left, which no load can tell apart.
-/

namespace Morgan

/-- `Fork`: the slot of a bank. -/
abbrev Fork := UInt64

/-- `HashMap<Fork, usize>`: a bank's ancestors, each with its distance from the bank. -/
abbrev Ancestors := List (Fork × Nat)

/-- `account_maps`: the versions of each key, by fork, in the order `AccountsIndex` keeps them. -/
abbrev AccountMaps := AssocMap Pubkey (List (Fork × Account))

/-- The accounts database with its index. -/
structure AccountsDb where
  accountMaps : AccountMaps
  roots : List Fork
  lastRoot : Fork
  keys_nodup : accountMaps.keys.Nodup

namespace AccountsDb

/-- An empty database. -/
def empty : AccountsDb := ⟨[], [], 0, List.nodup_nil⟩

/-- The versions of a key. -/
def versions (db : AccountsDb) (key : Pubkey) : List (Fork × Account) :=
  (db.accountMaps.get? key).getD []

/-- `is_root`. -/
def isRoot (db : AccountsDb) (fork : Fork) : Bool := fork ∈ db.roots

/-- `is_purged`. -/
def isPurged (db : AccountsDb) (fork : Fork) : Bool := fork < db.lastRoot

/-- A fork a bank with these ancestors sees: one of the ancestors, or a root. -/
def visible (db : AccountsDb) (ancestors : Ancestors) (fork : Fork) : Bool :=
  (ancestors.lookup fork).isSome || db.isRoot fork

/-- The loop of `AccountsIndex::get` over the versions, newest first: keep the version of the
greatest visible fork. -/
def latest (visible : Fork → Bool) (versions : List (Fork × Account)) :
    Fork × Option (Account × Fork) :=
  versions.reverse.foldl
    (fun acc e => if e.1 ≥ acc.1 && visible e.1 then (e.1, some (e.2, e.1)) else acc) (0, none)

/-- `AccountsDB::load`. -/
def load (db : AccountsDb) (ancestors : Ancestors) (key : Pubkey) : Option (Account × Fork) :=
  (latest (db.visible ancestors) (db.versions key)).2

/-- `AccountsIndex::insert`: replace the version of the fork, then drop the purged ones. -/
def insert (db : AccountsDb) (fork : Fork) (key : Pubkey) (account : Account) : AccountsDb :=
  let vs := (db.versions key).filter (·.1 != fork) ++ [(fork, account)]
  let vs := vs.filter fun v => !db.isPurged v.1
  { db with
    accountMaps := db.accountMaps.set key vs
    keys_nodup := AssocMap.nodup_keys_set db.keys_nodup key vs }

/-- The account as storage keeps it: `data_len` is zero when the account has no difs. -/
def storedAccount (account : Account) : Account :=
  if account.difs = 0 then { account with data := [] } else account

/-- `AccountsDB::store`: the accounts in order, so that a later one of a key wins. -/
def store (db : AccountsDb) (fork : Fork) (accounts : List (Pubkey × Account)) : AccountsDb :=
  accounts.foldl (fun db e => db.insert fork e.1 (storedAccount e.2)) db

/-- `AccountsIndex::add_root`; `none` is the panic of its assertion that roots increase. -/
def addRoot (db : AccountsDb) (fork : Fork) : Option AccountsDb :=
  if (db.lastRoot = 0 ∧ fork = 0) ∨ fork > db.lastRoot then
    some { db with lastRoot := fork, roots := db.roots.insert fork }
  else none

/-- The sum of the difs of every account a bank sees, in unbounded naturals. -/
def totalDifs (db : AccountsDb) (ancestors : Ancestors) : Nat :=
  (db.accountMaps.map fun e => ((db.load ancestors e.1).map (·.1.difs.toNat)).getD 0).sum

end AccountsDb

end Morgan
