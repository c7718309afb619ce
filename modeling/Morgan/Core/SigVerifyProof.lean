import Morgan.Core.SigVerify
import Morgan.Runtime.MessageProcessor

/-!
# What signature verification checks

`get_packet_offsets` slices the packet buffer at `sig_size + sig_len * 64` before anything bounds
`sig_len`, and `decode_len` unwraps a bad length encoding: a packet can panic there
(`getPacketOffsets_eq_none_of_count`, `getPacketOffsets_eq_none_of_overlong`).  Past that point
the checks of `verify_packet` keep every slice in the buffer (`verifyPacket_ne_none`).

When `verify_packet` returns `1`, every one of the `sig_len` signatures it read verifies under the
key read at the same position, over the bytes from the message start to the end of the packet
(`verifyPacket_eq_one`).  Which keys a program sees as signers is decided elsewhere, by the
header of the transaction the banking stage decodes (`MessageProcessor.instructionKeys`); the
banking stage decodes every transaction that serializes (`deserializeTransactions_ofReceived`).
-/

namespace Morgan

namespace SigVerify

open Rust ShortVec

variable {verify : Signature → List UInt8 → List UInt8 → Bool}

/-! ## Offsets -/

theorem getPacketOffsets_eq_none_of_count {packet : Packet} {sigLen sigSize : Nat}
    (hlen : decodeLen packet.data = some (sigLen, sigSize))
    (hcount : PACKET_DATA_SIZE < sigSize + sigLen * SIGNATURE_SIZE) (currentOffset : UInt32) :
    getPacketOffsets packet currentOffset = none := by
  have hslice : sliceFrom packet.data (sigSize + sigLen * SIGNATURE_SIZE) = none :=
    sliceFrom_eq_none.2 (packet.data_length ▸ hcount)
  simp [getPacketOffsets, hlen, hslice]

theorem getPacketOffsets_eq_none_of_overlong {packet : Packet} {b₀ b₁ b₂ : UInt8}
    {rest : List UInt8} (hdata : packet.data = b₀ :: b₁ :: b₂ :: rest) (h₀ : 128 ≤ b₀.toNat)
    (h₁ : 128 ≤ b₁.toNat) (h₂ : 128 ≤ b₂.toNat) (currentOffset : UInt32) :
    getPacketOffsets packet currentOffset = none := by
  have hlen : decodeLen packet.data = none :=
    decodeLen_eq_none (hdata ▸ deserializeShortU16_overlong h₀ h₁ h₂ rest)
  simp [getPacketOffsets, hlen]

/-- A one-byte datagram `[20]` claims twenty signatures: `get_packet_offsets` slices the buffer
at `1 + 20 * 64 = 1281`, past its 1232 bytes, and the whole batch panics. -/
theorem signature_count_past_buffer_panics :
    getPacketOffsets (Packet.ofReceived [20] (by decide)) 0 = none ∧
      ∀ verify, ed25519VerifyCpu verify [⟨[Packet.ofReceived [20] (by decide)]⟩] = none := by
  have hlen : decodeLen (Packet.ofReceived [20] (by decide)).data = some (20, 1) :=
    decodeLen_of_lt (b := 20) (by decide) _
  have hnone := getPacketOffsets_eq_none_of_count hlen (by decide) 0
  refine ⟨hnone, fun verify => ?_⟩
  simp [ed25519VerifyCpu, verifyPacket, hnone]

/-! ## The loop of `verify_packet` -/

theorem verifySignatures_ne_none {packet : Packet} {msgStart : Nat} (hmsg : msgStart ≤ packet.size)
    (hsize : packet.size ≤ PACKET_DATA_SIZE) :
    ∀ remaining sigStart pubkeyStart,
      verifySignatures verify packet msgStart packet.size remaining sigStart pubkeyStart ≠ none
  | 0, _, _ => by simp [verifySignatures_zero]
  | remaining + 1, sigStart, pubkeyStart => by
    have hdata := packet.data_length
    rw [verifySignatures_succ]
    split_ifs with hend
    · simp
    · -- the signature, the key and the message all end inside the buffer
      push Not at hend
      obtain ⟨hpk, hsig⟩ := hend
      have hsigSlice := slice_of_le (s := packet.data) (Nat.le_add_right sigStart SIGNATURE_SIZE)
        (by omega)
      have hpkSlice := slice_of_le (s := packet.data) (Nat.le_add_right pubkeyStart PUBKEY_SIZE)
        (by omega)
      have hmsgSlice := slice_of_le (s := packet.data) hmsg (by omega)
      have hlen64 : ((packet.data.drop sigStart).take (sigStart + SIGNATURE_SIZE - sigStart)).length
          = 64 := by
        simp [SIGNATURE_SIZE] at hsig ⊢
        omega
      simp only [hsigSlice, hpkSlice, hmsgSlice, Option.bind_eq_bind, Option.bind_some,
        dif_pos hlen64]
      split_ifs
      · exact verifySignatures_ne_none hmsg hsize remaining _ _
      · simp

/-- Once the offsets are read, `verify_packet` does not panic. -/
theorem verifyPacket_ne_none {packet : Packet} {offsets : UInt32 × UInt32 × UInt32 × UInt32}
    (hoffsets : getPacketOffsets packet 0 = some offsets) (hsize : packet.size ≤ PACKET_DATA_SIZE) :
    verifyPacket verify packet ≠ none := by
  obtain ⟨sigLen, sigStart, msgStart, pubkeyStart⟩ := offsets
  simp only [verifyPacket, hoffsets, Option.bind_eq_bind, Option.bind_some]
  split_ifs with hmsg
  · simp
  · exact verifySignatures_ne_none (by omega) hsize _ _ _

/-! ## What a verdict of `1` means -/

/-- Every signature the loop reads verifies: the `i`-th signature from `sigStart`, under the
`i`-th key from `pubkeyStart`, over the message bytes. -/
theorem verifySignatures_eq_one {packet : Packet} {msgStart msgEnd : Nat} :
    ∀ {remaining sigStart pubkeyStart},
      verifySignatures verify packet msgStart msgEnd remaining sigStart pubkeyStart = some 1 →
      ∀ i < remaining, ∃ signature pubkey message,
        slice packet.data (sigStart + i * SIGNATURE_SIZE) (sigStart + (i + 1) * SIGNATURE_SIZE) =
            some signature.bytes.toList ∧
          slice packet.data (pubkeyStart + i * PUBKEY_SIZE) (pubkeyStart + (i + 1) * PUBKEY_SIZE) =
            some pubkey ∧
          slice packet.data msgStart msgEnd = some message ∧ verify signature pubkey message = true
  | 0, _, _, _, i, hi => absurd hi (Nat.not_lt_zero i)
  | remaining + 1, sigStart, pubkeyStart, h, i, hi => by
    rw [verifySignatures_succ] at h
    split_ifs at h with hend
    · simp at h
    simp only [Option.bind_eq_bind, Option.bind_eq_some_iff] at h
    obtain ⟨signature, hsig, pubkey, hpk, message, hmsg, h⟩ := h
    split_ifs at h with hlen hverify
    · cases i with
      | zero =>
        -- the signature of this iteration
        refine ⟨⟨⟨signature.toArray, by simpa using hlen⟩⟩, pubkey, message, ?_, ?_, hmsg, hverify⟩
        · simpa [SIGNATURE_SIZE] using hsig
        · simpa [PUBKEY_SIZE] using hpk
      | succ i =>
        -- a later signature: the rest of the loop starts one signature and one key further on
        obtain ⟨signature', pubkey', message', h₁, h₂, h₃, h₄⟩ :=
          verifySignatures_eq_one h i (by omega)
        have hs₁ : sigStart + SIGNATURE_SIZE + i * SIGNATURE_SIZE =
            sigStart + (i + 1) * SIGNATURE_SIZE := by simp only [SIGNATURE_SIZE]; omega
        have hs₂ : sigStart + SIGNATURE_SIZE + (i + 1) * SIGNATURE_SIZE =
            sigStart + (i + 1 + 1) * SIGNATURE_SIZE := by simp only [SIGNATURE_SIZE]; omega
        have hp₁ : pubkeyStart + PUBKEY_SIZE + i * PUBKEY_SIZE =
            pubkeyStart + (i + 1) * PUBKEY_SIZE := by simp only [PUBKEY_SIZE]; omega
        have hp₂ : pubkeyStart + PUBKEY_SIZE + (i + 1) * PUBKEY_SIZE =
            pubkeyStart + (i + 1 + 1) * PUBKEY_SIZE := by simp only [PUBKEY_SIZE]; omega
        rw [hs₁, hs₂] at h₁
        rw [hp₁, hp₂] at h₂
        exact ⟨signature', pubkey', message', h₁, h₂, h₃, h₄⟩
    · simp at h

/-- `verify_packet` returns `1` only when each of the `sig_len` signatures read from the packet
verifies under the key read at the same index, over the bytes from the message start to the end
of the packet. -/
theorem verifyPacket_eq_one {packet : Packet} {sigLen sigStart msgStart pubkeyStart : UInt32}
    (hoffsets : getPacketOffsets packet 0 = some (sigLen, sigStart, msgStart, pubkeyStart))
    (h : verifyPacket verify packet = some 1) :
    ∀ i < sigLen.toNat, ∃ signature pubkey message,
      slice packet.data (sigStart.toNat + i * SIGNATURE_SIZE)
          (sigStart.toNat + (i + 1) * SIGNATURE_SIZE) = some signature.bytes.toList ∧
        slice packet.data (pubkeyStart.toNat + i * PUBKEY_SIZE)
          (pubkeyStart.toNat + (i + 1) * PUBKEY_SIZE) = some pubkey ∧
        slice packet.data msgStart.toNat packet.size = some message ∧
        verify signature pubkey message = true := by
  simp only [verifyPacket, hoffsets, Option.bind_eq_bind, Option.bind_some] at h
  split_ifs at h
  · simp at h
  · exact verifySignatures_eq_one h

end SigVerify

/-! ## Decoding in the banking stage -/

/-- A transaction received whole in a fresh packet is decoded back by the banking stage. -/
theorem deserializeTransactions_ofReceived {tx : Transaction} {bytes : List UInt8}
    (hser : tx.serialize = some bytes) (h : bytes.length ≤ PACKET_DATA_SIZE) :
    deserializeTransactions ⟨[Packet.ofReceived bytes h]⟩ = some [some tx] := by
  have hslice : Rust.slice (bytes ++ List.replicate (PACKET_DATA_SIZE - bytes.length) 0) 0
      bytes.length = some bytes := Rust.slice_append_left _ _
  have hdecode : Bincode.deserialize Transaction.deserialize (bytes ++ []) = some tx :=
    Bincode.deserialize_of_run (readsBack_transaction tx bytes hser [])
  simp only [List.append_nil] at hdecode
  simp [deserializeTransactions, Packet.ofReceived, hslice, hdecode]

/-- One signature over a message whose header counts two signers; its instruction passes the
second key to the program. -/
def signerGapTx : Transaction :=
  ⟨[⟨Vector.replicate 64 7⟩],
    ⟨⟨2, 0, 1⟩, [⟨Vector.replicate 32 1⟩, ⟨Vector.replicate 32 2⟩, ⟨Vector.replicate 32 3⟩],
      default, [⟨2, [1], []⟩]⟩⟩

set_option maxRecDepth 20000 in
/-- `signerGapTx` as a client sends it. -/
def signerGapPacket : Packet := Packet.ofReceived (signerGapTx.serialize.getD []) (by decide)

set_option maxRecDepth 20000 in
/-- Signature verification passes `signerGapPacket` exactly when its one signature verifies
under the first key; the banking stage decodes it to `signerGapTx`, whose instruction hands the
program the second key as a signer. -/
theorem signer_without_signature (verify : Signature → List UInt8 → List UInt8 → Bool) :
    (SigVerify.verifyPacket verify signerGapPacket = some 1 ↔
        verify ⟨Vector.replicate 64 7⟩ (List.replicate 32 1) (signerGapTx.messageData.getD []) =
          true) ∧
      deserializeTransactions ⟨[signerGapPacket]⟩ = some [some signerGapTx] ∧
      signerGapTx.signatures.length = 1 ∧
      MessageProcessor.instructionKeys signerGapTx.message ⟨2, [1], []⟩ =
        some [(⟨Vector.replicate 32 2⟩, true)] := by
  -- the offsets and the three slices the loop reads, evaluated on the buffer
  have hoffsets : SigVerify.getPacketOffsets signerGapPacket 0 = some (1, 1, 65, 69) := by decide
  have hsize : signerGapPacket.size = 202 := by decide
  have hsig : Rust.slice signerGapPacket.data 1 65 = some (List.replicate 64 7) := by decide
  have hpk : Rust.slice signerGapPacket.data 69 101 = some (List.replicate 32 1) := by decide
  have hmsg : Rust.slice signerGapPacket.data 65 202 = some (signerGapTx.messageData.getD []) := by
    decide
  have hσ : ∀ h, (⟨⟨(List.replicate 64 (7 : UInt8)).toArray, h⟩⟩ : Signature) =
      ⟨Vector.replicate 64 7⟩ := fun _ => rfl
  refine ⟨?_, deserializeTransactions_ofReceived (by decide) _, rfl, by decide⟩
  simp only [SigVerify.verifyPacket, hoffsets, Option.bind_eq_bind, Option.bind_some]
  rw [if_neg (by rw [hsize]; decide)]
  change SigVerify.verifySignatures verify signerGapPacket 65 202 (0 + 1) 1 69 = some 1 ↔ _
  simp only [SigVerify.verifySignatures_succ, hsize,
    if_neg (show ¬(69 + PUBKEY_SIZE ≥ 202 ∨ 1 + SIGNATURE_SIZE ≥ 202) by decide)]
  simp only [show 1 + SIGNATURE_SIZE = 65 from rfl, show 69 + PUBKEY_SIZE = 101 from rfl, hsig, hpk,
    hmsg, Option.bind_eq_bind, Option.bind_some, List.length_replicate, dif_pos, hσ]
  split_ifs with hverify
  · exact iff_of_true rfl hverify
  · exact iff_of_false (by decide) hverify

end Morgan
