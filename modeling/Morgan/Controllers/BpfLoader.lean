import Mathlib
import Morgan.Interface.Account
import Morgan.Lib.Bincode
import Morgan.Lib.Outcome

/-!
# The BPF loader's parameter buffer

`serialize_parameters` (`bpf_loader/src/lib.rs`) lays a program's accounts out in one buffer for
the VM: the number of accounts, then for each its signer flag, key, difs, data length, data and
owner, then the instruction data, the tick height and the program id, integers as little-endian
`u64`s.  The program may write the buffer; `deserialize_parameters` then reads each account's difs
and data back from it.

The reader does not parse the buffer: it walks a cursor over fixed sizes and each account's own
data length.  The cursor meets the start of each account's record as the writer laid it out
(`deserializeAccounts_eq`), and the writer put the difs and the data where the reader looks
(`serializeParameters_writes_at`), so on any buffer of the writer's length the reader stays within
it, and on the writer's own bytes it gives the accounts back (`deserializeParameters_reads_layout`).
The VM that runs the program in between is not modelled.
-/

namespace Morgan

namespace BpfLoader

open Bincode Rust

/-! ## The model -/

/-- `LittleEndian::read_u64`: the number in the first eight bytes; panics on fewer. -/
def readU64 (buf : List UInt8) : Option UInt64 :=
  if 8 ≤ buf.length then some (UInt64.ofNat (ofLittleEndian (buf.take 8))) else none

/-- The bytes the loop of `serialize_parameters` writes for one account. -/
def serializeAccount (info : KeyedAccount) : List UInt8 :=
  encodeU64 (if info.signerKey.isSome then 1 else 0) ++ info.unsignedKey.bytes.toList ++
    encodeU64 info.account.difs ++ encodeU64 (UInt64.ofNat info.account.data.length) ++
    info.account.data ++ info.account.owner.bytes.toList

/-- `serialize_parameters`: the accounts, then the instruction data, the tick height and the
program id. -/
def serializeParameters (programId : Pubkey) (keyedAccounts : List KeyedAccount)
    (data : List UInt8) (tickHeight : UInt64) : List UInt8 :=
  encodeU64 (UInt64.ofNat keyedAccounts.length) ++ keyedAccounts.flatMap serializeAccount ++
    encodeU64 (UInt64.ofNat data.length) ++ data ++ encodeU64 tickHeight ++
    programId.bytes.toList

/-- The loop of `deserialize_parameters` from the cursor `start`; `none` is a panic, a read past
the buffer's end. -/
def deserializeAccounts (buffer : List UInt8) (start : Nat) :
    List KeyedAccount → Option (List KeyedAccount)
  | [] => some []
  | info :: rest => do
    -- skip the signer flag and the key
    let start := start + 8 + 32
    let difs ← readU64 (← sliceFrom buffer start)
    -- skip the difs and the length tag
    let start := start + 8 + 8
    let data ← slice buffer start (start + info.account.data.length)
    let info := { info with account := { info.account with difs, data } }
    -- skip the data and the owner
    let rest ← deserializeAccounts buffer (start + info.account.data.length + 32) rest
    pure (info :: rest)

/-- `deserialize_parameters`: the cursor starts past the number of accounts. -/
def deserializeParameters (keyedAccounts : List KeyedAccount) (buffer : List UInt8) :
    Option (List KeyedAccount) :=
  deserializeAccounts buffer 8 keyedAccounts

/-! ## The layout -/

/-- Where `serialize_parameters` starts the record of the `i`-th account. -/
def accountOffset (keyedAccounts : List KeyedAccount) (i : Nat) : Nat :=
  8 + ((keyedAccounts.take i).flatMap serializeAccount).length

/-- An account as `deserialize_parameters` leaves it when its record starts at `offset`: the difs
are the `u64` past the signer flag and the key, the data the bytes past the difs and the length
tag, and nothing else changes. -/
def readBack (buffer : List UInt8) (offset : Nat) (info : KeyedAccount) : KeyedAccount :=
  { info with account := { info.account with
      difs := UInt64.ofNat (ofLittleEndian ((buffer.drop (offset + 40)).take 8))
      data := (buffer.drop (offset + 56)).take info.account.data.length } }

theorem length_serializeAccount (info : KeyedAccount) :
    (serializeAccount info).length = 88 + info.account.data.length := by
  simp only [serializeAccount, List.length_append, length_toLittleEndian, encodeU64,
    Vector.length_toList]
  omega

theorem readU64_of_le {buf : List UInt8} (h : 8 ≤ buf.length) :
    readU64 buf = some (UInt64.ofNat (ofLittleEndian (buf.take 8))) :=
  if_pos h

/-- The middle of a list cut in three, read back by its offset and length. -/
theorem take_drop_of_eq_append {l pre mid post : List UInt8} {n k : Nat}
    (h : l = pre ++ mid ++ post) (hn : pre.length = n) (hk : mid.length = k) :
    (l.drop n).take k = mid := by
  rw [h, List.append_assoc, List.drop_left' hn, List.take_left' hk]

/-! ## The reader -/

/-- One account of the loop: its difs and data are read at the cursor, and the cursor moves past
its record. -/
theorem deserializeAccounts_cons {buffer : List UInt8} {start : Nat} {info : KeyedAccount}
    {rest : List KeyedAccount}
    (h : start + (serializeAccount info).length ≤ buffer.length) :
    deserializeAccounts buffer start (info :: rest) =
      (readBack buffer start info :: ·) <$>
        deserializeAccounts buffer (start + (serializeAccount info).length) rest := by
  rw [length_serializeAccount] at h ⊢
  have hfrom : sliceFrom buffer (start + 8 + 32) = some (buffer.drop (start + 8 + 32)) :=
    if_pos (by omega)
  have hdifs : readU64 (buffer.drop (start + 8 + 32)) =
      some (UInt64.ofNat (ofLittleEndian ((buffer.drop (start + 40)).take 8))) :=
    readU64_of_le (by rw [List.length_drop]; omega)
  have hdata : slice buffer (start + 8 + 32 + 8 + 8)
      (start + 8 + 32 + 8 + 8 + info.account.data.length) =
      some ((buffer.drop (start + 56)).take info.account.data.length) := by
    rw [slice_of_le (by omega) (by omega), Nat.add_sub_cancel_left]
  have hlen : ((buffer.drop (start + 56)).take info.account.data.length).length =
      info.account.data.length := by
    rw [List.length_take, List.length_drop]
    omega
  simp only [deserializeAccounts, hfrom, hdifs, hdata, Option.bind_eq_bind, Option.bind_some,
    hlen, readBack]
  rw [show start + 8 + 32 + 8 + 8 + info.account.data.length + 32 =
    start + (88 + info.account.data.length) by omega]
  cases deserializeAccounts buffer (start + (88 + info.account.data.length)) rest <;> rfl

/-- The whole loop: with the buffer long enough for the records from the cursor on, each account is
read back at the start of its record. -/
theorem deserializeAccounts_eq {buffer : List UInt8} :
    ∀ (start : Nat) (keyedAccounts : List KeyedAccount),
      start + (keyedAccounts.flatMap serializeAccount).length ≤ buffer.length →
      deserializeAccounts buffer start keyedAccounts =
        some (keyedAccounts.mapIdx fun i info =>
          readBack buffer (start + ((keyedAccounts.take i).flatMap serializeAccount).length) info)
  | _, [], _ => rfl
  | start, info :: rest, h => by
    rw [List.flatMap_cons, List.length_append, ← Nat.add_assoc] at h
    rw [deserializeAccounts_cons (by omega), deserializeAccounts_eq _ rest h, Option.map_eq_map,
      Option.map_some, List.mapIdx_cons]
    simp only [List.take_zero, List.flatMap_nil, List.length_nil, Nat.add_zero,
      List.take_succ_cons, List.flatMap_cons, List.length_append, Nat.add_assoc]

/-- `deserialize_parameters` on a buffer at least as long as the accounts' records: each account is
read back at the start of its record, with no read past the end. -/
theorem deserializeParameters_eq {keyedAccounts : List KeyedAccount} {buffer : List UInt8}
    (h : 8 + (keyedAccounts.flatMap serializeAccount).length ≤ buffer.length) :
    deserializeParameters keyedAccounts buffer =
      some (keyedAccounts.mapIdx fun i info =>
        readBack buffer (accountOffset keyedAccounts i) info) :=
  deserializeAccounts_eq 8 keyedAccounts h

/-! ## The writer -/

/-- The records of the accounts before the `i`-th, its own, and those after it. -/
theorem flatMap_serializeAccount_split {keyedAccounts : List KeyedAccount} {i : Nat}
    (hi : i < keyedAccounts.length) :
    keyedAccounts.flatMap serializeAccount = (keyedAccounts.take i).flatMap serializeAccount ++
      (serializeAccount keyedAccounts[i] ++
        (keyedAccounts.drop (i + 1)).flatMap serializeAccount) := by
  conv_lhs => rw [← List.take_append_drop i keyedAccounts, List.drop_eq_getElem_cons hi]
  rw [List.flatMap_append, List.flatMap_cons]

/-- `serialize_parameters` writes the `i`-th account's difs 40 bytes into its record, past the
signer flag and the key, and its data 56 bytes in, past the difs and the length tag. -/
theorem serializeParameters_writes_at (programId : Pubkey) (keyedAccounts : List KeyedAccount)
    (data : List UInt8) (tickHeight : UInt64) {i : Nat} (hi : i < keyedAccounts.length) :
    ((serializeParameters programId keyedAccounts data tickHeight).drop
        (accountOffset keyedAccounts i + 40)).take 8 = encodeU64 keyedAccounts[i].account.difs ∧
      ((serializeParameters programId keyedAccounts data tickHeight).drop
          (accountOffset keyedAccounts i + 56)).take keyedAccounts[i].account.data.length =
        keyedAccounts[i].account.data := by
  set info := keyedAccounts[i]
  set pre := encodeU64 (UInt64.ofNat keyedAccounts.length) ++
    (keyedAccounts.take i).flatMap serializeAccount
  set post := (keyedAccounts.drop (i + 1)).flatMap serializeAccount ++
    encodeU64 (UInt64.ofNat data.length) ++ data ++ encodeU64 tickHeight ++ programId.bytes.toList
  have hv : serializeParameters programId keyedAccounts data tickHeight =
      pre ++ serializeAccount info ++ post := by
    simp only [serializeParameters, flatMap_serializeAccount_split hi, pre, post, info,
      List.append_assoc]
  have hpre : pre.length = accountOffset keyedAccounts i := by
    simp [pre, accountOffset, encodeU64]
  set flag := encodeU64 (if info.signerKey.isSome then 1 else 0)
  have hflag : flag.length = 8 := length_toLittleEndian 8 _
  rw [hv]
  constructor
  · -- the signer flag and the key come before the difs
    have hsplit : pre ++ serializeAccount info ++ post =
        pre ++ (flag ++ info.unsignedKey.bytes.toList) ++ encodeU64 info.account.difs ++
          (encodeU64 (UInt64.ofNat info.account.data.length) ++ info.account.data ++
            info.account.owner.bytes.toList ++ post) := by
      simp only [serializeAccount, flag, List.append_assoc]
    refine take_drop_of_eq_append hsplit ?_ (length_toLittleEndian 8 _)
    simp only [List.length_append, hpre, hflag, KeyedAccount.unsignedKey, Vector.length_toList]
  · -- and the difs and the length tag before the data
    have hsplit : pre ++ serializeAccount info ++ post =
        pre ++ (flag ++ info.unsignedKey.bytes.toList ++ encodeU64 info.account.difs ++
          encodeU64 (UInt64.ofNat info.account.data.length)) ++ info.account.data ++
          (info.account.owner.bytes.toList ++ post) := by
      simp only [serializeAccount, flag, List.append_assoc]
    refine take_drop_of_eq_append hsplit ?_ rfl
    simp only [List.length_append, hpre, hflag, KeyedAccount.unsignedKey, Vector.length_toList,
      encodeU64, length_toLittleEndian]

/-! ## Agreement -/

/-- An account read back from the bytes its record was written with is the account itself. -/
theorem readBack_of_writes {buffer : List UInt8} {offset : Nat} {info : KeyedAccount}
    (hdifs : (buffer.drop (offset + 40)).take 8 = encodeU64 info.account.difs)
    (hdata : (buffer.drop (offset + 56)).take info.account.data.length = info.account.data) :
    readBack buffer offset info = info := by
  rw [readBack, hdifs, hdata, ofNat_ofLittleEndian_encodeU64]

theorem records_le_length_serializeParameters (programId : Pubkey)
    (keyedAccounts : List KeyedAccount) (data : List UInt8) (tickHeight : UInt64) :
    8 + (keyedAccounts.flatMap serializeAccount).length ≤
      (serializeParameters programId keyedAccounts data tickHeight).length := by
  simp only [serializeParameters, List.length_append, encodeU64, length_toLittleEndian]
  omega

/-- `deserialize_parameters` on what `serialize_parameters` wrote gives the accounts back. -/
theorem deserializeParameters_serializeParameters (programId : Pubkey)
    (keyedAccounts : List KeyedAccount) (data : List UInt8) (tickHeight : UInt64) :
    deserializeParameters keyedAccounts
      (serializeParameters programId keyedAccounts data tickHeight) = some keyedAccounts := by
  rw [deserializeParameters_eq (records_le_length_serializeParameters ..)]
  congr 1
  refine List.ext_getElem (List.length_mapIdx ..) fun i hi _ => ?_
  have hi' : i < keyedAccounts.length := by simpa using hi
  obtain ⟨hdifs, hdata⟩ :=
    serializeParameters_writes_at programId keyedAccounts data tickHeight hi'
  rw [List.getElem_mapIdx]
  exact readBack_of_writes hdifs hdata

/-- Whatever a program leaves in a buffer of the length `serialize_parameters` wrote,
`deserialize_parameters` reads within it, and takes each account's difs and data from where the
writer put them, keeping the rest of the account; on the writer's own bytes it changes nothing. -/
theorem deserializeParameters_reads_layout (programId : Pubkey)
    (keyedAccounts : List KeyedAccount) (data : List UInt8) (tickHeight : UInt64)
    (buffer : List UInt8)
    (hlen : buffer.length = (serializeParameters programId keyedAccounts data tickHeight).length) :
    (∀ i (hi : i < keyedAccounts.length),
      ((serializeParameters programId keyedAccounts data tickHeight).drop
          (accountOffset keyedAccounts i + 40)).take 8 = encodeU64 keyedAccounts[i].account.difs ∧
        ((serializeParameters programId keyedAccounts data tickHeight).drop
            (accountOffset keyedAccounts i + 56)).take keyedAccounts[i].account.data.length =
          keyedAccounts[i].account.data) ∧
      deserializeParameters keyedAccounts buffer =
        some (keyedAccounts.mapIdx fun i info =>
          readBack buffer (accountOffset keyedAccounts i) info) ∧
      deserializeParameters keyedAccounts
        (serializeParameters programId keyedAccounts data tickHeight) = some keyedAccounts :=
  ⟨fun _ hi => serializeParameters_writes_at programId keyedAccounts data tickHeight hi,
    deserializeParameters_eq (hlen ▸ records_le_length_serializeParameters ..),
    deserializeParameters_serializeParameters programId keyedAccounts data tickHeight⟩

/-- A signed account holding two bytes. -/
def twoByteAccount : KeyedAccount := ⟨default, true, ⟨5, 0, [1, 2], default, false⟩⟩

set_option maxRecDepth 2000 in
/-- A program that fills the 146 bytes of the buffer with sevens sets the difs to the `u64` of
eight sevens and the data to two of them. -/
theorem deserializeParameters_reads_layout_sevens :
    deserializeParameters [twoByteAccount] (List.replicate 146 7) =
      some [⟨default, true, ⟨506381209866536711, 0, [7, 7], default, false⟩⟩] :=
  (deserializeParameters_reads_layout default [twoByteAccount] [] 0 (List.replicate 146 7)
    (by decide)).2.1.trans (by decide)

end BpfLoader

end Morgan
