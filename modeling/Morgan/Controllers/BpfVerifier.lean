import Mathlib
import Morgan.Lib.Bincode
import Morgan.Lib.Outcome

/-!
# The BPF verifier

`bpf_verifier.rs`: `check` is the verifier the BPF loader hands to the VM (`create_vm`), which runs
it on the text of every program before executing it.  It checks the program's length, then walks
the instructions from the first: an `LD_DW_IMM` takes two slots and its second must have opcode 0,
a jump must land inside the program on a slot whose opcode is not 0, some immediates must not be 0,
and registers must be in range.  A rejection is an `io::Error` whose text is the message of
`reject`; two opcodes reach `unimplemented!()`.

Instructions are decoded by `ebpf::get_insn` of `solana_rbpf`, which panics past the program's
end; the opcodes are the crate's eBPF encodings.  The program's maximum number of instructions,
`ebpf::PROG_MAX_INSNS`, is a parameter: nothing here depends on its value.
-/

namespace Morgan

namespace BpfVerifier

open Bincode Rust

/-! ## `ebpf` -/

/-- `ebpf::INSN_SIZE`. -/
def INSN_SIZE : Nat := 8

/-- `ebpf::Insn`: the opcode, the two registers' nibbles, the offset and the immediate. -/
structure Insn where
  opc : UInt8
  dst : UInt8
  src : UInt8
  off : Int16
  imm : Int32
  deriving DecidableEq, Repr

/-- `ebpf::get_insn`: the instruction in the slot `idx`, read from its eight bytes, its offset and
immediate little-endian; `none` past the program's end, where it panics. -/
def getInsn (prog : List UInt8) (idx : Nat) : Option Insn :=
  if (idx + 1) * INSN_SIZE ≤ prog.length then
    let bytes := (prog.drop (INSN_SIZE * idx)).take INSN_SIZE
    some {
      opc := bytes.getD 0 0
      dst := bytes.getD 1 0 &&& 0x0f
      src := (bytes.getD 1 0 &&& 0xf0) >>> 4
      off := (UInt16.ofNat (ofLittleEndian ((bytes.drop 2).take 2))).toInt16
      imm := (UInt32.ofNat (ofLittleEndian ((bytes.drop 4).take 4))).toInt32 }
  else none

def LD_ABS_B : UInt8 := 0x30
def LD_ABS_H : UInt8 := 0x28
def LD_ABS_W : UInt8 := 0x20
def LD_ABS_DW : UInt8 := 0x38
def LD_IND_B : UInt8 := 0x50
def LD_IND_H : UInt8 := 0x48
def LD_IND_W : UInt8 := 0x40
def LD_IND_DW : UInt8 := 0x58
def LD_DW_IMM : UInt8 := 0x18
def LD_B_REG : UInt8 := 0x71
def LD_H_REG : UInt8 := 0x69
def LD_W_REG : UInt8 := 0x61
def LD_DW_REG : UInt8 := 0x79
def ST_B_IMM : UInt8 := 0x72
def ST_H_IMM : UInt8 := 0x6a
def ST_W_IMM : UInt8 := 0x62
def ST_DW_IMM : UInt8 := 0x7a
def ST_B_REG : UInt8 := 0x73
def ST_H_REG : UInt8 := 0x6b
def ST_W_REG : UInt8 := 0x63
def ST_DW_REG : UInt8 := 0x7b
def ST_W_XADD : UInt8 := 0xc3
def ST_DW_XADD : UInt8 := 0xdb
def ADD32_IMM : UInt8 := 0x04
def ADD32_REG : UInt8 := 0x0c
def SUB32_IMM : UInt8 := 0x14
def SUB32_REG : UInt8 := 0x1c
def MUL32_IMM : UInt8 := 0x24
def MUL32_REG : UInt8 := 0x2c
def DIV32_IMM : UInt8 := 0x34
def DIV32_REG : UInt8 := 0x3c
def OR32_IMM : UInt8 := 0x44
def OR32_REG : UInt8 := 0x4c
def AND32_IMM : UInt8 := 0x54
def AND32_REG : UInt8 := 0x5c
def LSH32_IMM : UInt8 := 0x64
def LSH32_REG : UInt8 := 0x6c
def RSH32_IMM : UInt8 := 0x74
def RSH32_REG : UInt8 := 0x7c
def NEG32 : UInt8 := 0x84
def MOD32_IMM : UInt8 := 0x94
def MOD32_REG : UInt8 := 0x9c
def XOR32_IMM : UInt8 := 0xa4
def XOR32_REG : UInt8 := 0xac
def MOV32_IMM : UInt8 := 0xb4
def MOV32_REG : UInt8 := 0xbc
def ARSH32_IMM : UInt8 := 0xc4
def ARSH32_REG : UInt8 := 0xcc
def LE : UInt8 := 0xd4
def BE : UInt8 := 0xdc
def ADD64_IMM : UInt8 := 0x07
def ADD64_REG : UInt8 := 0x0f
def SUB64_IMM : UInt8 := 0x17
def SUB64_REG : UInt8 := 0x1f
def MUL64_IMM : UInt8 := 0x27
def MUL64_REG : UInt8 := 0x2f
def DIV64_IMM : UInt8 := 0x37
def DIV64_REG : UInt8 := 0x3f
def OR64_IMM : UInt8 := 0x47
def OR64_REG : UInt8 := 0x4f
def AND64_IMM : UInt8 := 0x57
def AND64_REG : UInt8 := 0x5f
def LSH64_IMM : UInt8 := 0x67
def LSH64_REG : UInt8 := 0x6f
def RSH64_IMM : UInt8 := 0x77
def RSH64_REG : UInt8 := 0x7f
def NEG64 : UInt8 := 0x87
def MOD64_IMM : UInt8 := 0x97
def MOD64_REG : UInt8 := 0x9f
def XOR64_IMM : UInt8 := 0xa7
def XOR64_REG : UInt8 := 0xaf
def MOV64_IMM : UInt8 := 0xb7
def MOV64_REG : UInt8 := 0xbf
def ARSH64_IMM : UInt8 := 0xc7
def ARSH64_REG : UInt8 := 0xcf
def JA : UInt8 := 0x05
def JEQ_IMM : UInt8 := 0x15
def JEQ_REG : UInt8 := 0x1d
def JGT_IMM : UInt8 := 0x25
def JGT_REG : UInt8 := 0x2d
def JGE_IMM : UInt8 := 0x35
def JGE_REG : UInt8 := 0x3d
def JLT_IMM : UInt8 := 0xa5
def JLT_REG : UInt8 := 0xad
def JLE_IMM : UInt8 := 0xb5
def JLE_REG : UInt8 := 0xbd
def JSET_IMM : UInt8 := 0x45
def JSET_REG : UInt8 := 0x4d
def JNE_IMM : UInt8 := 0x55
def JNE_REG : UInt8 := 0x5d
def JSGT_IMM : UInt8 := 0x65
def JSGT_REG : UInt8 := 0x6d
def JSGE_IMM : UInt8 := 0x75
def JSGE_REG : UInt8 := 0x7d
def JSLT_IMM : UInt8 := 0xc5
def JSLT_REG : UInt8 := 0xcd
def JSLE_IMM : UInt8 := 0xd5
def JSLE_REG : UInt8 := 0xdd
def CALL_IMM : UInt8 := 0x85
def CALL_REG : UInt8 := 0x8d
def EXIT : UInt8 := 0x95

/-! ## The checks -/

/-- `reject`: an `io::Error` of kind `Other` with the message. -/
def reject {α : Type} (msg : String) : Outcome String α :=
  .err ("[Verifier] Error: " ++ msg)

/-- `check_prog_len`. -/
def checkProgLen (progMaxInsns : Nat) (prog : List UInt8) : Outcome String Unit := do
  if prog.length % INSN_SIZE ≠ 0 then
    reject s!"eBPF program length must be a multiple of {INSN_SIZE} octets"
  if prog.length > progMaxInsns * INSN_SIZE then
    reject s!"eBPF program length limited to {progMaxInsns}, here {prog.length / INSN_SIZE}"
  if prog.isEmpty then
    reject "No program set, call prog_set() to load one"

/-- `check_imm_nonzero`. -/
def checkImmNonzero (insn : Insn) (insnPtr : Nat) : Outcome String Unit :=
  if insn.imm = 0 then reject s!"division by 0 (insn #{insnPtr})" else pure ()

/-- `check_imm_endian`. -/
def checkImmEndian (insn : Insn) (insnPtr : Nat) : Outcome String Unit :=
  if insn.imm ∈ [16, 32, 64] then pure ()
  else reject s!"unsupported argument for LE/BE (insn #{insnPtr})"

/-- `check_load_dw`: the slot after an `LD_DW_IMM` has opcode 0. -/
def checkLoadDw (prog : List UInt8) (insnPtr : Nat) : Outcome String Unit := do
  let nextInsn ← Outcome.ofOption (getInsn prog (insnPtr + 1))
  if nextInsn.opc ≠ 0 then reject s!"incomplete LD_DW instruction (insn #{insnPtr})"

/-- The slot a jump lands on: `insn_ptr + 1 + off`, as an `isize`. -/
def jumpTarget (insnPtr : Nat) (insn : Insn) : Int := insnPtr + 1 + insn.off.toInt

/-- `check_jmp_offset`. -/
def checkJmpOffset (prog : List UInt8) (insnPtr : Nat) : Outcome String Unit := do
  let insn ← Outcome.ofOption (getInsn prog insnPtr)
  if insn.off = -1 then reject s!"infinite loop (insn #{insnPtr})"
  let dstInsnPtr := jumpTarget insnPtr insn
  if dstInsnPtr < 0 ∨ dstInsnPtr.toNat ≥ prog.length / INSN_SIZE then
    reject s!"jump out of code to #{dstInsnPtr} (insn #{insnPtr})"
  let dstInsn ← Outcome.ofOption (getInsn prog dstInsnPtr.toNat)
  if dstInsn.opc = 0 then
    reject s!"jump to middle of LD_DW at #{dstInsnPtr} (insn #{insnPtr})"

/-- `check_registers`: a source register up to `r10`, and a destination register up to `r9`, or
`r10` for a store. -/
def checkRegisters (insn : Insn) (store : Bool) (insnPtr : Nat) : Outcome String Unit :=
  if insn.src > 10 then reject s!"invalid source register (insn #{insnPtr})"
  else if insn.dst ≤ 9 ∨ (insn.dst = 10 ∧ store) then pure ()
  else if insn.dst = 10 then reject s!"cannot write into register r10 (insn #{insnPtr})"
  else reject s!"invalid destination register (insn #{insnPtr})"

/-- What the arm of `check`'s match for an opcode does. -/
inductive Arm where
  /-- `{}` -/
  | pass
  /-- `store = true` -/
  | store
  /-- `LD_DW_IMM`: a store, `check_load_dw`, and one more slot -/
  | ldDw
  /-- `unimplemented!()` -/
  | xadd
  /-- `check_imm_nonzero` -/
  | immNonzero
  /-- `check_imm_endian` -/
  | immEndian
  /-- `check_jmp_offset` -/
  | jump
  /-- the catch-all arm: an unknown opcode -/
  | unknown
  deriving DecidableEq, Repr

/-- The arm of `check`'s match that an opcode takes.  `MUL64_IMM` has its immediate checked for
0 and `MOD64_IMM` does not, as in the source. -/
def arm (opc : UInt8) : Arm :=
  if opc ∈ [LD_ABS_B, LD_ABS_H, LD_ABS_W, LD_ABS_DW, LD_IND_B, LD_IND_H, LD_IND_W, LD_IND_DW,
      LD_B_REG, LD_H_REG, LD_W_REG, LD_DW_REG,
      ADD32_IMM, ADD32_REG, SUB32_IMM, SUB32_REG, MUL32_IMM, MUL32_REG, DIV32_REG, OR32_IMM,
      OR32_REG, AND32_IMM, AND32_REG, LSH32_IMM, LSH32_REG, RSH32_IMM, RSH32_REG, NEG32,
      MOD32_REG, XOR32_IMM, XOR32_REG, MOV32_IMM, MOV32_REG, ARSH32_IMM, ARSH32_REG,
      ADD64_IMM, ADD64_REG, SUB64_IMM, SUB64_REG, MUL64_REG, DIV64_REG, OR64_IMM, OR64_REG,
      AND64_IMM, AND64_REG, LSH64_IMM, LSH64_REG, RSH64_IMM, RSH64_REG, NEG64, MOD64_IMM,
      MOD64_REG, XOR64_IMM, XOR64_REG, MOV64_IMM, MOV64_REG, ARSH64_IMM, ARSH64_REG,
      CALL_IMM, CALL_REG, EXIT] then .pass
  else if opc = LD_DW_IMM then .ldDw
  else if opc ∈ [ST_B_IMM, ST_H_IMM, ST_W_IMM, ST_DW_IMM, ST_B_REG, ST_H_REG, ST_W_REG,
      ST_DW_REG] then .store
  else if opc ∈ [ST_W_XADD, ST_DW_XADD] then .xadd
  else if opc ∈ [DIV32_IMM, MOD32_IMM, MUL64_IMM, DIV64_IMM] then .immNonzero
  else if opc ∈ [LE, BE] then .immEndian
  else if opc ∈ [JA, JEQ_IMM, JEQ_REG, JGT_IMM, JGT_REG, JGE_IMM, JGE_REG, JLT_IMM, JLT_REG,
      JLE_IMM, JLE_REG, JSET_IMM, JSET_REG, JNE_IMM, JNE_REG, JSGT_IMM, JSGT_REG, JSGE_IMM,
      JSGE_REG, JSLT_IMM, JSLT_REG, JSLE_IMM, JSLE_REG] then .jump
  else .unknown

/-- `{:#2x}` of a byte. -/
def hexByte (b : UInt8) : String := "0x" ++ String.ofList (Nat.toDigits 16 b.toNat)

/-- One turn of `check`'s loop before `check_registers`: whether the instruction stores, and how
many more slots it takes. -/
def checkArm (prog : List UInt8) (insn : Insn) (insnPtr : Nat) : Outcome String (Bool × Nat) :=
  match arm insn.opc with
  | .pass => pure (false, 0)
  | .store => pure (true, 0)
  | .ldDw => do
    checkLoadDw prog insnPtr
    pure (true, 1)
  | .xadd => .panic
  | .immNonzero => do
    checkImmNonzero insn insnPtr
    pure (false, 0)
  | .immEndian => do
    checkImmEndian insn insnPtr
    pure (false, 0)
  | .jump => do
    checkJmpOffset prog insnPtr
    pure (false, 0)
  | .unknown => reject s!"unknown eBPF opcode {hexByte insn.opc} (insn #{insnPtr})"

/-- The loop of `check` from `insn_ptr`: the position it stops at.  `check_registers` names the
slot after an `LD_DW_IMM`, the loop having moved past it. -/
def checkLoop (prog : List UInt8) (insnPtr : Nat) : Outcome String Nat :=
  if insnPtr * INSN_SIZE < prog.length then do
    let insn ← Outcome.ofOption (getInsn prog insnPtr)
    let (store, skip) ← checkArm prog insn insnPtr
    checkRegisters insn store (insnPtr + skip)
    checkLoop prog (insnPtr + skip + 1)
  else pure insnPtr
termination_by prog.length - insnPtr * INSN_SIZE
decreasing_by
  simp only [INSN_SIZE] at *
  omega

/-- `bpf_verifier::check`. -/
def check (progMaxInsns : Nat) (prog : List UInt8) : Outcome String Unit := do
  checkProgLen progMaxInsns prog
  let insnPtr ← checkLoop prog 0
  if insnPtr ≠ prog.length / INSN_SIZE then reject s!"jumped out of code to #{insnPtr}"

end BpfVerifier

end Morgan
