import Morgan.Lib.Outcome
import Morgan.Interface.Transaction

/-!
# Signature verification of packets

`signatureVerify.rs`: the signature-verification stage reads the offsets of a transaction's
signatures, message and keys straight out of the packet bytes, with `decode_len` on the
signature count and on the first byte of the message, and verifies the first `sig_len`
signatures against the first `sig_len` keys over the bytes from the message start to the end of
the packet.  `generate_offsets` lays the same offsets out for a batch in `u32`.  The banking
stage then deserializes each packet on its own (`treasuryStage.rs`).

`Packet.data` is the whole `[u8; PACKET_DATA_SIZE]` buffer, read past `meta.size` by
`decode_len`.  `Signature::verify` calls `ed25519_dalek`, which is not part of the repository: it
is a parameter `verify` throughout.  Release builds wrap `u32` arithmetic; `UInt32` does the same.
-/

namespace Morgan

/-- `PACKET_DATA_SIZE`. -/
def PACKET_DATA_SIZE : Nat := 1232

/-- `size_of::<Packet>()`: the data buffer and the 32-byte `#[repr(C)]` `Meta`. -/
def PACKET_SIZE : Nat := 1264

/-- `size_of::<Signature>()`. -/
def SIGNATURE_SIZE : Nat := 64

/-- `size_of::<Pubkey>()`. -/
def PUBKEY_SIZE : Nat := 32

/-- `serialized_size(&MessageHeader::default())`. -/
def MESSAGE_HEADER_SIZE : Nat := 3

/-- A packet: the fixed data buffer and `meta.size`; the rest of `Meta` is not read here. -/
structure Packet where
  data : List UInt8
  data_length : data.length = PACKET_DATA_SIZE
  size : Nat

/-- A packet received into a fresh buffer: `recv_from` writes the datagram at the start of the
zeroed buffer and sets `meta.size` to its length. -/
def Packet.ofReceived (bytes : List UInt8) (h : bytes.length ≤ PACKET_DATA_SIZE) : Packet :=
  ⟨bytes ++ List.replicate (PACKET_DATA_SIZE - bytes.length) 0, by simp; omega, bytes.length⟩

namespace SigVerify

open Rust ShortVec

variable (verify : Signature → List UInt8 → List UInt8 → Bool)

/-- `get_packet_offsets`: `(sig_len, sig_start, msg_start, pubkey_start)`; `none` is a panic of
`decode_len` or of the slice at the message start. -/
def getPacketOffsets (packet : Packet) (currentOffset : UInt32) :
    Option (UInt32 × UInt32 × UInt32 × UInt32) := do
  let (sigLen, sigSize) ← decodeLen packet.data
  let msgStartOffset := sigSize + sigLen * SIGNATURE_SIZE
  let (_, pubkeySize) ← decodeLen (← sliceFrom packet.data msgStartOffset)
  let sigStart := currentOffset.toNat + sigSize
  let msgStart := currentOffset.toNat + msgStartOffset
  let pubkeyStart := msgStart + MESSAGE_HEADER_SIZE + pubkeySize
  pure (UInt32.ofNat sigLen, UInt32.ofNat sigStart, UInt32.ofNat msgStart, UInt32.ofNat pubkeyStart)

/-- The loop of `verify_packet` over the `remaining` signatures left; `none` is a panic. -/
def verifySignatures (packet : Packet) (msgStart msgEnd : Nat) :
    Nat → Nat → Nat → Option UInt8
  | 0, _, _ => some 1
  | remaining + 1, sigStart, pubkeyStart =>
    let pubkeyEnd := pubkeyStart + PUBKEY_SIZE
    let sigEnd := sigStart + SIGNATURE_SIZE
    if pubkeyEnd ≥ packet.size ∨ sigEnd ≥ packet.size then some 0
    else do
      let signature ← slice packet.data sigStart sigEnd
      let pubkey ← slice packet.data pubkeyStart pubkeyEnd
      let message ← slice packet.data msgStart msgEnd
      -- `Signature::new` copies exactly the 64 bytes of the slice
      if h : signature.length = 64 then
        if verify ⟨⟨signature.toArray, by simpa using h⟩⟩ pubkey message then
          verifySignatures packet msgStart msgEnd remaining (sigStart + SIGNATURE_SIZE)
            (pubkeyStart + PUBKEY_SIZE)
        else some 0
      else none

theorem verifySignatures_zero (packet : Packet) (msgStart msgEnd sigStart pubkeyStart : Nat) :
    verifySignatures verify packet msgStart msgEnd 0 sigStart pubkeyStart = some 1 := rfl

theorem verifySignatures_succ (packet : Packet)
    (msgStart msgEnd remaining sigStart pubkeyStart : Nat) :
    verifySignatures verify packet msgStart msgEnd (remaining + 1) sigStart pubkeyStart =
      if pubkeyStart + PUBKEY_SIZE ≥ packet.size ∨ sigStart + SIGNATURE_SIZE ≥ packet.size then
        some 0
      else (do
        let signature ← slice packet.data sigStart (sigStart + SIGNATURE_SIZE)
        let pubkey ← slice packet.data pubkeyStart (pubkeyStart + PUBKEY_SIZE)
        let message ← slice packet.data msgStart msgEnd
        if h : signature.length = 64 then
          if verify ⟨⟨signature.toArray, by simpa using h⟩⟩ pubkey message then
            verifySignatures verify packet msgStart msgEnd remaining (sigStart + SIGNATURE_SIZE)
              (pubkeyStart + PUBKEY_SIZE)
          else some 0
        else none) := rfl

/-- `verify_packet`: `1` when every signature verifies. -/
def verifyPacket (packet : Packet) : Option UInt8 := do
  let (sigLen, sigStart, msgStart, pubkeyStart) ← getPacketOffsets packet 0
  if packet.size ≤ msgStart.toNat then some 0
  else
    verifySignatures verify packet msgStart.toNat packet.size sigLen.toNat sigStart.toNat
      pubkeyStart.toNat

/-- `Packets`: a batch of packets. -/
structure Packets where
  packets : List Packet

/-- `ed25519_verify_cpu`: a verdict per packet; a panic in any packet ends the call. -/
def ed25519VerifyCpu (batches : List Packets) : Option (List (List UInt8)) :=
  batches.mapM fun p => p.packets.mapM (verifyPacket verify)

/-- `TxOffsets`. -/
structure TxOffsets where
  signatureOffsets : List UInt32
  pubkeyOffsets : List UInt32
  msgStartOffsets : List UInt32
  msgSizes : List UInt32
  sigLens : List (List UInt32)
  deriving DecidableEq, Repr

/-- The inner loop of `generate_offsets`: one entry per signature of a packet. -/
def pushSignatures (msgStartOffset msgSize : UInt32) :
    Nat → UInt32 → UInt32 → TxOffsets → TxOffsets
  | 0, _, _, acc => acc
  | remaining + 1, sigOffset, pubkeyOffset, acc =>
    pushSignatures msgStartOffset msgSize remaining (sigOffset + UInt32.ofNat SIGNATURE_SIZE)
      (pubkeyOffset + UInt32.ofNat PUBKEY_SIZE)
      { acc with
        signatureOffsets := acc.signatureOffsets ++ [sigOffset]
        pubkeyOffsets := acc.pubkeyOffsets ++ [pubkeyOffset]
        msgStartOffsets := acc.msgStartOffsets ++ [msgStartOffset]
        msgSizes := acc.msgSizes ++ [msgSize] }

/-- The loop of `generate_offsets` over the packets of one batch; `currentPacket` counts the
packets of every batch so far, and the batch's signature counts are returned apart. -/
def offsetsOfPackets : List Packet → Nat → TxOffsets → Option (TxOffsets × List UInt32 × Nat)
  | [], currentPacket, acc => some (acc, [], currentPacket)
  | packet :: rest, currentPacket, acc => do
    let currentOffset := UInt32.ofNat currentPacket * UInt32.ofNat PACKET_SIZE
    let (sigLen, sigStart, msgStartOffset, pubkeyOffset) ← getPacketOffsets packet currentOffset
    let msgSize := currentOffset + UInt32.ofNat packet.size - msgStartOffset
    let acc := pushSignatures msgStartOffset msgSize sigLen.toNat sigStart pubkeyOffset acc
    let (acc, sigLens, currentPacket) ← offsetsOfPackets rest (currentPacket + 1) acc
    pure (acc, sigLen :: sigLens, currentPacket)

/-- The loop of `generate_offsets` over the batches. -/
def offsetsOfBatches : List Packets → Nat → TxOffsets → Option TxOffsets
  | [], _, acc => some acc
  | p :: rest, currentPacket, acc => do
    let (acc, sigLens, currentPacket) ← offsetsOfPackets p.packets currentPacket acc
    offsetsOfBatches rest currentPacket { acc with sigLens := acc.sigLens ++ [sigLens] }

/-- `generate_offsets`; it never returns `Err`, and `none` is a panic. -/
def generateOffsets (batches : List Packets) : Option TxOffsets :=
  offsetsOfBatches batches 0 ⟨[], [], [], [], []⟩

end SigVerify

/-- `BankingStage::deserialize_transactions`: `None` for a packet that does not decode; slicing
the buffer at `meta.size` panics past its end. -/
def deserializeTransactions (p : SigVerify.Packets) : Option (List (Option Transaction)) :=
  p.packets.mapM fun x => do
    let bytes ← Rust.slice x.data 0 x.size
    pure (Bincode.deserialize Transaction.deserialize bytes)

end Morgan
