import Mathlib.Data.Vector.Basic

/-!
# Keys, hashes and signatures

The fixed-size byte strings of `morgan_interface`: `Pubkey([u8; 32])` (`pubkey.rs`),
`Hash([u8; 32])` (`hash.rs`) and the 64-byte ed25519 `Signature` (`signature.rs`).  Their
`Default` values are all zero bytes.  Slots, tick heights and difs are `u64` in the source and
`UInt64` here.
-/

namespace Morgan

/-- `Pubkey([u8; 32])`. -/
structure Pubkey where
  bytes : Vector UInt8 32
  deriving DecidableEq, Repr

/-- `Hash([u8; 32])`. -/
structure Hash where
  bytes : Vector UInt8 32
  deriving DecidableEq, Repr

/-- An ed25519 signature, 64 bytes. -/
structure Signature where
  bytes : Vector UInt8 64
  deriving DecidableEq, Repr

instance : Inhabited Pubkey := ⟨⟨Vector.replicate 32 0⟩⟩

instance : Inhabited Hash := ⟨⟨Vector.replicate 32 0⟩⟩

instance : Inhabited Signature := ⟨⟨Vector.replicate 64 0⟩⟩

/-- A slot number (`u64`). -/
abbrev Slot := UInt64

end Morgan
