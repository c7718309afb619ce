import Mathlib
import Morgan.Controllers.BpfVerifier

/-!
# What the BPF verifier guarantees

The verifier's loop decodes the program from its first slot, an instruction taking one slot or,
for `LD_DW_IMM`, two: the slots it visits are the program's instruction starts (`IsStart`).  On a
program it accepts, the walk ends exactly at the program's end, and every jump from an instruction
start lands on an instruction start other than itself: a jump target is inside the program and not
a slot of opcode 0, and the only slots of opcode 0 are the second halves of `LD_DW_IMM`s
(`check_ok_control_flow`).

The loop visits only slots it has not rejected, so appending an instruction to an accepted program
leaves the checks of its slots as they were (`checkLoop_append`), and `check` then decides on the
new instruction alone.  That way: `MUL64_IMM` by 0 is rejected as a division by 0 while `MOD64_IMM`
by 0 is accepted; an `LD_DW_IMM` in the last slot makes `get_insn` panic; and the atomic adds reach
`unimplemented!()`.
-/

namespace Morgan

namespace BpfVerifier

open Rust

/-! ## Decoding -/

/-- The number of slots of a program. -/
def slots (prog : List UInt8) : Nat := prog.length / INSN_SIZE

/-- The slots an instruction takes. -/
def width (insn : Insn) : Nat := if insn.opc = LD_DW_IMM then 2 else 1

/-- `Reaches prog i j`: decoding from slot `i`, one instruction after another, reaches slot `j`. -/
inductive Reaches (prog : List UInt8) : Nat → Nat → Prop
  | refl (i : Nat) : Reaches prog i i
  | step {i j : Nat} {insn : Insn} :
      getInsn prog i = some insn → Reaches prog (i + width insn) j → Reaches prog i j

/-- The instruction starts: the slots decoding from the first slot reaches. -/
def IsStart (prog : List UInt8) (i : Nat) : Prop := Reaches prog 0 i

theorem getInsn_eq_none_iff {prog : List UInt8} {i : Nat} :
    getInsn prog i = none ↔ prog.length < (i + 1) * INSN_SIZE := by
  unfold getInsn
  split_ifs with h
  · simpa using h
  · simpa using h

theorem lt_of_getInsn_eq_some {prog : List UInt8} {i : Nat} {insn : Insn}
    (h : getInsn prog i = some insn) : (i + 1) * INSN_SIZE ≤ prog.length := by
  by_contra hlt
  rw [getInsn_eq_none_iff.2 (Nat.lt_of_not_le hlt)] at h
  cases h

theorem mul_lt_of_getInsn_eq_some {prog : List UInt8} {i : Nat} {insn : Insn}
    (h : getInsn prog i = some insn) : i * INSN_SIZE < prog.length := by
  have := lt_of_getInsn_eq_some h
  simp only [INSN_SIZE] at *
  omega

theorem lt_slots_of_getInsn_eq_some {prog : List UInt8} {i : Nat} {insn : Insn}
    (h : getInsn prog i = some insn) : i < slots prog := by
  have := lt_of_getInsn_eq_some h
  simp only [slots, INSN_SIZE] at *
  omega

/-- A slot of a program reads the same after anything is appended. -/
theorem getInsn_append_of_le {prog : List UInt8} {i : Nat} (h : (i + 1) * INSN_SIZE ≤ prog.length)
    (more : List UInt8) : getInsn (prog ++ more) i = getInsn prog i := by
  have hlen : (i + 1) * INSN_SIZE ≤ (prog ++ more).length := by
    rw [List.length_append]
    omega
  have hbytes : ((prog ++ more).drop (INSN_SIZE * i)).take INSN_SIZE =
      (prog.drop (INSN_SIZE * i)).take INSN_SIZE := by
    rw [List.drop_append_of_le_length (by simp only [INSN_SIZE] at *; omega),
      List.take_append_of_le_length (by rw [List.length_drop]; simp only [INSN_SIZE] at *; omega)]
  simp only [getInsn, if_pos h, if_pos hlen, hbytes]

/-- The slot just past a program of whole slots reads the first slot of what is appended. -/
theorem getInsn_append_slots {prog : List UInt8} (h : prog.length % INSN_SIZE = 0)
    (more : List UInt8) : getInsn (prog ++ more) (slots prog) = getInsn more 0 := by
  have hlen : prog.length = INSN_SIZE * slots prog := by
    simp only [slots, INSN_SIZE] at *
    omega
  have hle : (slots prog + 1) * INSN_SIZE ≤ (prog ++ more).length ↔
      (0 + 1) * INSN_SIZE ≤ more.length := by
    rw [List.length_append]
    simp only [slots, INSN_SIZE] at *
    omega
  unfold getInsn
  rw [← hlen, List.drop_left, Nat.mul_zero, List.drop_zero]
  by_cases hmore : (0 + 1) * INSN_SIZE ≤ more.length
  · rw [if_pos (hle.2 hmore), if_pos hmore]
  · rw [if_neg (fun h => hmore (hle.1 h)), if_neg hmore]

/-! ## The checks of one slot -/

theorem arm_eq_ldDw_iff {opc : UInt8} : arm opc = .ldDw ↔ opc = LD_DW_IMM := by
  constructor
  · intro h
    unfold arm at h
    split_ifs at h with hpass hldDw
    exact hldDw
  · rintro rfl
    decide

theorem width_eq {insn : Insn} : width insn = if arm insn.opc = .ldDw then 2 else 1 := by
  simp only [width, arm_eq_ldDw_iff]

theorem checkLoadDw_eq_ok {prog : List UInt8} {i : Nat} :
    checkLoadDw prog i = .ok () ↔ ∃ next, getInsn prog (i + 1) = some next ∧ next.opc = 0 := by
  cases hnext : getInsn prog (i + 1) with
  | none => simp [checkLoadDw, hnext]
  | some next =>
    by_cases hopc : next.opc = 0
    · simp [checkLoadDw, hnext, hopc, Outcome.pure_eq_ok]
    · simp [checkLoadDw, hnext, hopc, reject]

theorem checkJmpOffset_eq_ok {prog : List UInt8} {i : Nat} :
    checkJmpOffset prog i = .ok () ↔ ∃ insn, getInsn prog i = some insn ∧ insn.off ≠ -1 ∧
      0 ≤ jumpTarget i insn ∧ (jumpTarget i insn).toNat < slots prog ∧
      ∃ dst, getInsn prog (jumpTarget i insn).toNat = some dst ∧ dst.opc ≠ 0 := by
  cases hinsn : getInsn prog i with
  | none => simp [checkJmpOffset, hinsn]
  | some insn =>
    by_cases hoff : insn.off = -1
    · simp [checkJmpOffset, hinsn, hoff, reject, Outcome.err_bind]
    by_cases hrange : jumpTarget i insn < 0 ∨ (jumpTarget i insn).toNat ≥ prog.length / INSN_SIZE
    · simp [checkJmpOffset, hinsn, hoff, hrange, reject, Outcome.err_bind, slots]
      omega
    cases hdst : getInsn prog (jumpTarget i insn).toNat with
    | none => simp [checkJmpOffset, hinsn, hoff, hrange, hdst]
    | some dst =>
      by_cases hopc : dst.opc = 0
      · simp [checkJmpOffset, hinsn, hoff, hrange, hdst, hopc, reject]
      · simp [checkJmpOffset, hinsn, hoff, hrange, hdst, hopc, Outcome.pure_eq_ok, slots]
        omega

/-- What a turn of the loop's match that passes can have done. -/
theorem checkArm_eq_ok {prog : List UInt8} {insn : Insn} {i : Nat} {store : Bool} {skip : Nat}
    (h : checkArm prog insn i = .ok (store, skip)) :
    skip + 1 = width insn ∧ arm insn.opc ≠ .unknown ∧ arm insn.opc ≠ .xadd ∧
      (arm insn.opc = .ldDw → checkLoadDw prog i = .ok ()) ∧
      (arm insn.opc = .jump → checkJmpOffset prog i = .ok ()) ∧
      (arm insn.opc = .immNonzero → insn.imm ≠ 0) := by
  rw [width_eq]
  unfold checkArm at h
  cases harm : arm insn.opc <;> simp only [harm] at h
  case pass | store =>
    cases h
    simp
  case ldDw =>
    obtain ⟨_, hload, hr⟩ := Outcome.bind_eq_ok.1 h
    cases hr
    simpa using hload
  case immNonzero =>
    obtain ⟨_, himm, hr⟩ := Outcome.bind_eq_ok.1 h
    cases hr
    unfold checkImmNonzero at himm
    split_ifs at himm with hzero
    · cases himm
    · simpa using hzero
  case immEndian =>
    obtain ⟨_, -, hr⟩ := Outcome.bind_eq_ok.1 h
    cases hr
    simp
  case jump =>
    obtain ⟨_, hjump, hr⟩ := Outcome.bind_eq_ok.1 h
    cases hr
    simpa using hjump
  case xadd | unknown => cases h

theorem checkLoadDw_append {prog : List UInt8} {i : Nat} (h : checkLoadDw prog i = .ok ())
    (more : List UInt8) : checkLoadDw (prog ++ more) i = .ok () := by
  obtain ⟨next, hnext, hopc⟩ := checkLoadDw_eq_ok.1 h
  rw [checkLoadDw_eq_ok, getInsn_append_of_le (lt_of_getInsn_eq_some hnext)]
  exact ⟨next, hnext, hopc⟩

theorem slots_le_append (prog more : List UInt8) : slots prog ≤ slots (prog ++ more) :=
  Nat.div_le_div_right (by simp)

theorem checkJmpOffset_append {prog : List UInt8} {i : Nat} (h : checkJmpOffset prog i = .ok ())
    (more : List UInt8) : checkJmpOffset (prog ++ more) i = .ok () := by
  obtain ⟨insn, hinsn, hoff, hpos, hlt, dst, hdst, hopc⟩ := checkJmpOffset_eq_ok.1 h
  rw [checkJmpOffset_eq_ok]
  refine ⟨insn, ?_, hoff, hpos, Nat.lt_of_lt_of_le hlt (slots_le_append prog more), dst, ?_, hopc⟩
  · rw [getInsn_append_of_le (lt_of_getInsn_eq_some hinsn), hinsn]
  · rw [getInsn_append_of_le (lt_of_getInsn_eq_some hdst), hdst]

/-- A turn of the loop's match that passes passes the same after anything is appended. -/
theorem checkArm_append {prog : List UInt8} {insn : Insn} {i : Nat} {r : Bool × Nat}
    (h : checkArm prog insn i = .ok r) (more : List UInt8) :
    checkArm (prog ++ more) insn i = .ok r := by
  unfold checkArm at h ⊢
  cases harm : arm insn.opc <;> simp only [harm] at h ⊢
  · exact h
  · exact h
  · obtain ⟨u, hload, hr⟩ := Outcome.bind_eq_ok.1 h
    exact Outcome.bind_eq_ok.2 ⟨u, checkLoadDw_append hload more, hr⟩
  · exact h
  · exact h
  · exact h
  · obtain ⟨u, hjump, hr⟩ := Outcome.bind_eq_ok.1 h
    exact Outcome.bind_eq_ok.2 ⟨u, checkJmpOffset_append hjump more, hr⟩
  · exact h

/-! ## The loop -/

theorem checkLoop_of_le {prog : List UInt8} {i : Nat} (h : prog.length ≤ i * INSN_SIZE) :
    checkLoop prog i = .ok i := by
  rw [checkLoop, if_neg (Nat.not_lt.2 h)]
  rfl

/-- What a turn of the loop that passes has checked. -/
theorem checkLoop_eq_ok_of_lt {prog : List UInt8} {i q : Nat} (hlt : i * INSN_SIZE < prog.length)
    (h : checkLoop prog i = .ok q) :
    ∃ insn store skip, getInsn prog i = some insn ∧ checkArm prog insn i = .ok (store, skip) ∧
      checkRegisters insn store (i + skip) = .ok () ∧ checkLoop prog (i + skip + 1) = .ok q := by
  rw [checkLoop, if_pos hlt] at h
  obtain ⟨insn, hinsn, h⟩ := Outcome.bind_eq_ok.1 h
  obtain ⟨⟨store, skip⟩, harm, h⟩ := Outcome.bind_eq_ok.1 h
  obtain ⟨_, hregs, hloop⟩ := Outcome.bind_eq_ok.1 h
  exact ⟨insn, store, skip, Outcome.ofOption_eq_ok.1 hinsn, harm, hregs, hloop⟩

/-- A turn of the loop on a slot that decodes. -/
theorem checkLoop_of_getInsn {prog : List UInt8} {i : Nat} {insn : Insn}
    (hinsn : getInsn prog i = some insn) :
    checkLoop prog i = (do
      let (store, skip) ← checkArm prog insn i
      checkRegisters insn store (i + skip)
      checkLoop prog (i + skip + 1)) := by
  rw [checkLoop, if_pos (mul_lt_of_getInsn_eq_some hinsn), hinsn, Outcome.ofOption_some,
    Outcome.ok_bind]

/-- A turn of the loop that passes hands over to the next instruction. -/
theorem checkLoop_step {prog : List UInt8} {i : Nat} {insn : Insn} {store : Bool} {skip : Nat}
    (hinsn : getInsn prog i = some insn) (harm : checkArm prog insn i = .ok (store, skip))
    (hregs : checkRegisters insn store (i + skip) = .ok ()) :
    checkLoop prog i = checkLoop prog (i + skip + 1) := by
  rw [checkLoop_of_getInsn hinsn, harm, Outcome.ok_bind]
  simp only [hregs, Outcome.ok_bind]

/-- Appending to a program leaves the turns of the loop that passed as they were: the loop of the
longer program goes through them to where the loop of the shorter one stopped. -/
theorem checkLoop_append {prog : List UInt8} {p q : Nat} (h : checkLoop prog p = .ok q)
    (more : List UInt8) : checkLoop (prog ++ more) p = checkLoop (prog ++ more) q := by
  induction p using checkLoop.induct prog with
  | case1 i hlt ih =>
    obtain ⟨insn, store, skip, hinsn, harm, hregs, hloop⟩ := checkLoop_eq_ok_of_lt hlt h
    rw [checkLoop_step (by rw [getInsn_append_of_le (lt_of_getInsn_eq_some hinsn), hinsn])
      (checkArm_append harm more) hregs]
    exact ih skip hloop
  | case2 i hle =>
    rw [checkLoop_of_le (Nat.le_of_not_lt hle)] at h
    cases h
    rfl

/-! ## Decoding along the loop -/

theorem Reaches.le {prog : List UInt8} {i j : Nat} (h : Reaches prog i j) : i ≤ j := by
  induction h with
  | refl => exact le_rfl
  | step _ _ ih => exact le_trans (Nat.le_add_right _ _) ih

/-- Decoding is deterministic: past its first instruction, it goes on from the next one. -/
theorem Reaches.of_getInsn {prog : List UInt8} {i j : Nat} {insn : Insn} (h : Reaches prog i j)
    (hinsn : getInsn prog i = some insn) : i = j ∨ Reaches prog (i + width insn) j := by
  cases h with
  | refl => exact .inl rfl
  | step hinsn' hr =>
    rw [hinsn] at hinsn'
    cases hinsn'
    exact .inr hr

/-- Each slot between two points of the decoding lies in an instruction decoded between them. -/
theorem Reaches.cover {prog : List UInt8} {i j : Nat} (h : Reaches prog i j) {k : Nat}
    (hik : i ≤ k) (hkj : k < j) :
    ∃ s insn, Reaches prog i s ∧ getInsn prog s = some insn ∧ s ≤ k ∧ k < s + width insn := by
  induction h with
  | refl => omega
  | @step i' j' insn hinsn hr ih =>
    by_cases hk : k < i' + width insn
    · exact ⟨i', insn, .refl _, hinsn, hik, hk⟩
    · obtain ⟨s, insn', hs, hget, hsk, hks⟩ := ih (by omega) hkj
      exact ⟨s, insn', .step hinsn hs, hget, hsk, hks⟩

/-- The loop decodes the program from where it starts to where it stops, past the program's end,
and every instruction it decodes on the way passes its turn. -/
theorem checkLoop_sound {prog : List UInt8} {p q : Nat} (h : checkLoop prog p = .ok q) :
    Reaches prog p q ∧ prog.length ≤ q * INSN_SIZE ∧
      ∀ i, Reaches prog p i → i < q → ∃ insn store skip, getInsn prog i = some insn ∧
        checkArm prog insn i = .ok (store, skip) ∧
        checkRegisters insn store (i + skip) = .ok () := by
  induction p using checkLoop.induct prog with
  | case1 p hlt ih =>
    obtain ⟨insn, store, skip, hinsn, harm, hregs, hloop⟩ := checkLoop_eq_ok_of_lt hlt h
    have hwidth : p + width insn = p + skip + 1 := by
      rw [← (checkArm_eq_ok harm).1]
      omega
    obtain ⟨hreach, hlen, hchecked⟩ := ih skip hloop
    refine ⟨.step hinsn (hwidth ▸ hreach), hlen, fun i hi hiq => ?_⟩
    rcases hi.of_getInsn hinsn with rfl | hi
    · exact ⟨insn, store, skip, hinsn, harm, hregs⟩
    · exact hchecked i (hwidth ▸ hi) hiq
  | case2 p hle =>
    rw [checkLoop_of_le (Nat.le_of_not_lt hle)] at h
    cases h
    exact ⟨.refl _, Nat.le_of_not_lt hle, fun i hi hiq => absurd hi.le (Nat.not_le.2 hiq)⟩

/-! ## Accepted programs -/

theorem checkProgLen_eq_ok {progMaxInsns : Nat} {prog : List UInt8} :
    checkProgLen progMaxInsns prog = .ok () ↔
      prog.length % INSN_SIZE = 0 ∧ prog.length ≤ progMaxInsns * INSN_SIZE ∧ prog ≠ [] := by
  by_cases hmod : prog.length % INSN_SIZE ≠ 0
  · simp [checkProgLen, hmod, reject, Outcome.err_bind]
  by_cases hmax : prog.length > progMaxInsns * INSN_SIZE
  · simp [checkProgLen, hmod, hmax, reject, Outcome.err_bind]
  by_cases hnil : prog = []
  · simp [checkProgLen, hnil, reject]
  · simp [checkProgLen, hmod, hmax, hnil, Outcome.pure_eq_ok]
    omega

/-- `check` accepts a program when its length passes and the loop stops exactly at its end. -/
theorem check_eq_ok {progMaxInsns : Nat} {prog : List UInt8} :
    check progMaxInsns prog = .ok () ↔
      checkProgLen progMaxInsns prog = .ok () ∧ checkLoop prog 0 = .ok (slots prog) := by
  constructor
  · intro h
    obtain ⟨_, hlen, h⟩ := Outcome.bind_eq_ok.1 h
    obtain ⟨q, hloop, h⟩ := Outcome.bind_eq_ok.1 h
    by_cases hq : q ≠ prog.length / INSN_SIZE
    · simp [hq, reject] at h
    · rw [Decidable.not_not] at hq
      rw [slots, ← hq]
      exact ⟨hlen, hloop⟩
  · rintro ⟨hlen, hloop⟩
    simp [check, hlen, hloop, slots, Outcome.pure_eq_ok]

theorem checkRegisters_eq_ok {insn : Insn} {store : Bool} {i : Nat}
    (h : checkRegisters insn store i = .ok ()) : insn.src ≤ 10 ∧ insn.dst ≤ 10 := by
  unfold checkRegisters at h
  split_ifs at h with hsrc hdst
  · cases h
  · refine ⟨UInt8.not_lt.1 hsrc, ?_⟩
    rcases hdst with hdst | ⟨hdst, -⟩
    · exact UInt8.le_trans hdst (by decide)
    · exact UInt8.le_of_eq hdst
  all_goals cases h

theorem checkRegisters_of_le {opc dst src : UInt8} {off : Int16} {imm : Int32} (hsrc : src ≤ 10)
    (hdst : dst ≤ 9) (store : Bool) (i : Nat) :
    checkRegisters ⟨opc, dst, src, off, imm⟩ store i = .ok () := by
  simp [checkRegisters, UInt8.not_lt.2 hsrc, hdst, Outcome.pure_eq_ok]

/-- In an accepted program, a slot of nonzero opcode is an instruction start: the other slots are
second halves of `LD_DW_IMM`s, which `check_load_dw` made sure have opcode 0. -/
theorem isStart_of_opc_ne_zero {prog : List UInt8} (hend : IsStart prog (slots prog))
    (hturn : ∀ i insn, IsStart prog i → getInsn prog i = some insn →
      ∃ store skip, checkArm prog insn i = .ok (store, skip))
    {t : Nat} {dst : Insn} (hdst : getInsn prog t = some dst) (hopc : dst.opc ≠ 0) :
    IsStart prog t := by
  obtain ⟨s, insn, hs, hget, hst, hts⟩ :=
    Reaches.cover hend (Nat.zero_le t) (lt_slots_of_getInsn_eq_some hdst)
  rcases Nat.eq_or_lt_of_le hst with rfl | hst
  · exact hs
  -- `t` is the second slot of an `LD_DW_IMM` at `s`
  have hwide : insn.opc = LD_DW_IMM := by
    by_contra hne
    simp only [width, if_neg hne] at hts
    omega
  have ht : t = s + 1 := by
    simp only [width, if_pos hwide] at hts
    omega
  obtain ⟨store, skip, harm⟩ := hturn s insn hs hget
  obtain ⟨next, hnext, hzero⟩ :=
    checkLoadDw_eq_ok.1 ((checkArm_eq_ok harm).2.2.2.1 (arm_eq_ldDw_iff.2 hwide))
  rw [← ht, hdst] at hnext
  cases hnext
  exact absurd hzero hopc

/-- A jump lands on its own slot only with offset `-1`, which `check_jmp_offset` rejects. -/
theorem jumpTarget_ne_self {i : Nat} {insn : Insn} (hoff : insn.off ≠ -1) :
    jumpTarget i insn ≠ i := by
  intro h
  apply hoff
  have hint : insn.off.toInt = (-1 : Int16).toInt := by
    unfold jumpTarget at h
    rw [show (-1 : Int16).toInt = -1 from rfl]
    omega
  exact Int16.toInt_inj.1 hint

/-- What the verifier guarantees of a program it accepts: whole slots, at least one and at most
`PROG_MAX_INSNS`; decoding from the first slot ends exactly at the program's end; and every
instruction start holds a known opcode other than the atomic adds, registers up to `r10`, an
`LD_DW_IMM` whose second slot has opcode 0, and a jump that lands on an instruction start inside
the program other than its own. -/
theorem check_ok_control_flow {progMaxInsns : Nat} {prog : List UInt8}
    (h : check progMaxInsns prog = .ok ()) :
    prog.length = slots prog * INSN_SIZE ∧ 0 < slots prog ∧ slots prog ≤ progMaxInsns ∧
      IsStart prog (slots prog) ∧
      ∀ i insn, IsStart prog i → getInsn prog i = some insn →
        arm insn.opc ≠ .unknown ∧ arm insn.opc ≠ .xadd ∧ insn.src ≤ 10 ∧ insn.dst ≤ 10 ∧
        (insn.opc = LD_DW_IMM → ∃ next, getInsn prog (i + 1) = some next ∧ next.opc = 0) ∧
        (arm insn.opc = .jump →
          ∃ t : Nat, jumpTarget i insn = t ∧ t ≠ i ∧ t < slots prog ∧ IsStart prog t) := by
  obtain ⟨hlen, hloop⟩ := check_eq_ok.1 h
  obtain ⟨hmod, hmax, hne⟩ := checkProgLen_eq_ok.1 hlen
  obtain ⟨hend, -, hchecked⟩ := checkLoop_sound hloop
  have hslots : prog.length = slots prog * INSN_SIZE := by
    simp only [slots, INSN_SIZE] at *
    omega
  -- every instruction start inside the program had its turn of the loop
  have hturn : ∀ i insn, IsStart prog i → getInsn prog i = some insn →
      ∃ store skip, checkArm prog insn i = .ok (store, skip) ∧
        checkRegisters insn store (i + skip) = .ok () := by
    intro i insn hi hinsn
    obtain ⟨insn', store, skip, hinsn', harm, hregs⟩ :=
      hchecked i hi (lt_slots_of_getInsn_eq_some hinsn)
    rw [hinsn] at hinsn'
    cases hinsn'
    exact ⟨store, skip, harm, hregs⟩
  have hpos : 0 < slots prog := by
    have := List.length_pos_of_ne_nil hne
    rw [hslots] at this
    exact Nat.pos_of_mul_pos_right this
  refine ⟨hslots, hpos, ?_, hend, fun i insn hi hinsn => ?_⟩
  · rw [hslots] at hmax
    exact Nat.le_of_mul_le_mul_right hmax (by decide)
  obtain ⟨store, skip, harm, hregs⟩ := hturn i insn hi hinsn
  obtain ⟨-, hknown, hxadd, hldDw, hjump, -⟩ := checkArm_eq_ok harm
  obtain ⟨hsrc, hdst⟩ := checkRegisters_eq_ok hregs
  refine ⟨hknown, hxadd, hsrc, hdst,
    fun hop => checkLoadDw_eq_ok.1 (hldDw (arm_eq_ldDw_iff.2 hop)), fun hj => ?_⟩
  obtain ⟨insn', hinsn', hoff, hnonneg, hlt, dst, hdst', hopc⟩ := checkJmpOffset_eq_ok.1 (hjump hj)
  rw [hinsn] at hinsn'
  cases hinsn'
  refine ⟨(jumpTarget i insn).toNat, (Int.toNat_of_nonneg hnonneg).symm, fun heq => ?_, hlt,
    isStart_of_opc_ne_zero hend (fun i insn hi hinsn => ?_) hdst' hopc⟩
  · exact jumpTarget_ne_self hoff (by rw [← Int.toNat_of_nonneg hnonneg, heq])
  · obtain ⟨store, skip, harm, -⟩ := hturn i insn hi hinsn
    exact ⟨store, skip, harm⟩

theorem check_ok_control_flow_exit :
    let prog : List UInt8 := [EXIT, 0, 0, 0, 0, 0, 0, 0]
    prog.length = slots prog * INSN_SIZE ∧ 0 < slots prog ∧ slots prog ≤ 1 ∧
      IsStart prog (slots prog) ∧
      ∀ i insn, IsStart prog i → getInsn prog i = some insn →
        arm insn.opc ≠ .unknown ∧ arm insn.opc ≠ .xadd ∧ insn.src ≤ 10 ∧ insn.dst ≤ 10 ∧
        (insn.opc = LD_DW_IMM → ∃ next, getInsn prog (i + 1) = some next ∧ next.opc = 0) ∧
        (arm insn.opc = .jump →
          ∃ t : Nat, jumpTarget i insn = t ∧ t ≠ i ∧ t < slots prog ∧ IsStart prog t) :=
  check_ok_control_flow (by unfold check checkLoop checkLoop; decide)

/-! ## An instruction appended to an accepted program -/

/-- The registers byte of an instruction naming `r0` to `r9` as destination, and `r0` as source. -/
theorem regs_of_lt_ten {d : UInt8} (h : d < 10) : d &&& 0x0f ≤ 9 ∧ (d &&& 0xf0) >>> 4 ≤ 10 := by
  have hlt : d.toNat < 10 := UInt8.lt_iff_toNat_lt.1 h
  obtain ⟨k, rfl⟩ : ∃ k : Fin 10, UInt8.ofNat k = d := ⟨⟨d.toNat, hlt⟩, by simp⟩
  fin_cases k <;> decide

theorem getInsn_bytes (opc regs o₀ o₁ i₀ i₁ i₂ i₃ : UInt8) :
    getInsn [opc, regs, o₀, o₁, i₀, i₁, i₂, i₃] 0 =
      some ⟨opc, regs &&& 0x0f, (regs &&& 0xf0) >>> 4,
        (UInt16.ofNat (Bincode.ofLittleEndian [o₀, o₁])).toInt16,
        (UInt32.ofNat (Bincode.ofLittleEndian [i₀, i₁, i₂, i₃])).toInt32⟩ := rfl

theorem getInsn_cons {rest : List UInt8} (hrest : rest.length = 7) (opc : UInt8) :
    ∃ insn, getInsn (opc :: rest) 0 = some insn ∧ insn.opc = opc := by
  rw [getInsn, if_pos (by simp [hrest, INSN_SIZE])]
  exact ⟨_, rfl, rfl⟩

/-- An accepted program with one more instruction appended, room permitting, is checked from the
program's end. -/
theorem check_append_of_ok {progMaxInsns : Nat} {prog bytes : List UInt8}
    (h : check progMaxInsns prog = .ok ()) (hroom : slots prog < progMaxInsns)
    (hbytes : bytes.length = INSN_SIZE) :
    check progMaxInsns (prog ++ bytes) = (do
      let insnPtr ← checkLoop (prog ++ bytes) (slots prog)
      if insnPtr ≠ slots prog + 1 then reject s!"jumped out of code to #{insnPtr}") := by
  obtain ⟨hlen, hloop⟩ := check_eq_ok.1 h
  obtain ⟨hmod, -, -⟩ := checkProgLen_eq_ok.1 hlen
  have hslots : (prog ++ bytes).length / INSN_SIZE = slots prog + 1 := by
    rw [List.length_append, hbytes]
    simp only [slots, INSN_SIZE] at *
    omega
  have hlen' : checkProgLen progMaxInsns (prog ++ bytes) = .ok () := by
    refine checkProgLen_eq_ok.2 ⟨?_, ?_, by simp [← List.length_pos_iff, hbytes, INSN_SIZE]⟩
    · rw [List.length_append, hbytes]
      simp only [INSN_SIZE] at *
      omega
    · rw [List.length_append, hbytes]
      simp only [slots, INSN_SIZE] at *
      omega
  rw [check, hlen', Outcome.ok_bind, checkLoop_append hloop bytes, hslots]

/-- `check_load_dw` reads the slot after an `LD_DW_IMM` without looking at the program's length:
after an accepted program, an `LD_DW_IMM` in the last slot makes `get_insn` panic. -/
theorem check_panics_on_trailing_ldDw {progMaxInsns : Nat} {prog : List UInt8}
    (h : check progMaxInsns prog = .ok ()) (hroom : slots prog < progMaxInsns)
    {rest : List UInt8} (hrest : rest.length = 7) :
    check progMaxInsns (prog ++ LD_DW_IMM :: rest) = .panic := by
  have hmod := (checkProgLen_eq_ok.1 (check_eq_ok.1 h).1).1
  obtain ⟨insn, hinsn, hopc⟩ := getInsn_cons hrest LD_DW_IMM
  have hat := (getInsn_append_slots hmod (LD_DW_IMM :: rest)).trans hinsn
  -- the second slot of the `LD_DW_IMM` is past the end
  have hnext : getInsn (prog ++ LD_DW_IMM :: rest) (slots prog + 1) = none := by
    rw [getInsn_eq_none_iff, List.length_append, List.length_cons, hrest]
    simp only [slots, INSN_SIZE] at *
    omega
  have harm : checkArm (prog ++ LD_DW_IMM :: rest) insn (slots prog) = .panic := by
    rw [checkArm, hopc, show arm LD_DW_IMM = .ldDw by decide]
    simp [checkLoadDw, hnext]
  rw [check_append_of_ok h hroom (by simp [hrest, INSN_SIZE]), checkLoop_of_getInsn hat, harm]
  rfl

theorem check_panics_on_trailing_ldDw_after_exit :
    check 2 ([EXIT, 0, 0, 0, 0, 0, 0, 0] ++ LD_DW_IMM :: [0, 0, 0, 0, 0, 0, 0]) = .panic :=
  check_panics_on_trailing_ldDw (by unfold check checkLoop checkLoop; decide) (by decide) rfl

/-- `MUL64_IMM` has its immediate checked for 0, as if it divided, and `MOD64_IMM`, which divides,
has not: after an accepted program, `mod64 dst, 0` is accepted and `mul64 dst, 0` rejected. -/
theorem check_mod64_by_zero_accepted {progMaxInsns : Nat} {prog : List UInt8}
    (h : check progMaxInsns prog = .ok ()) (hroom : slots prog < progMaxInsns) {dst : UInt8}
    (hdst : dst < 10) (off₀ off₁ : UInt8) :
    check progMaxInsns (prog ++ MOD64_IMM :: [dst, off₀, off₁, 0, 0, 0, 0]) = .ok () ∧
      check progMaxInsns (prog ++ MUL64_IMM :: [dst, off₀, off₁, 0, 0, 0, 0]) =
        reject s!"division by 0 (insn #{slots prog})" := by
  have hmod := (checkProgLen_eq_ok.1 (check_eq_ok.1 h).1).1
  obtain ⟨hdst', hsrc⟩ := regs_of_lt_ten hdst
  have himm : (UInt32.ofNat (Bincode.ofLittleEndian [0, 0, 0, 0])).toInt32 = 0 := by decide
  constructor
  · have hat := (getInsn_append_slots hmod _).trans (getInsn_bytes MOD64_IMM dst off₀ off₁ 0 0 0 0)
    have hend :
        checkLoop (prog ++ MOD64_IMM :: [dst, off₀, off₁, 0, 0, 0, 0]) (slots prog + 0 + 1) =
          .ok (slots prog + 1) := by
      refine checkLoop_of_le ?_
      rw [List.length_append]
      simp only [slots, INSN_SIZE, List.length_cons, List.length_nil] at *
      omega
    rw [check_append_of_ok h hroom rfl, checkLoop_of_getInsn hat, checkArm,
      show arm MOD64_IMM = .pass by decide]
    simp only [Outcome.pure_eq_ok, Outcome.ok_bind, checkRegisters_of_le hsrc hdst', hend, ne_eq]
    rfl
  · have hat := (getInsn_append_slots hmod _).trans (getInsn_bytes MUL64_IMM dst off₀ off₁ 0 0 0 0)
    rw [check_append_of_ok h hroom rfl, checkLoop_of_getInsn hat, checkArm,
      show arm MUL64_IMM = .immNonzero by decide]
    simp only [checkImmNonzero, himm, if_true]
    rfl

theorem check_mod64_by_zero_accepted_after_exit :
    check 3 ([EXIT, 0, 0, 0, 0, 0, 0, 0] ++ MOD64_IMM :: [1, 0, 0, 0, 0, 0, 0]) = .ok () ∧
      check 3 ([EXIT, 0, 0, 0, 0, 0, 0, 0] ++ MUL64_IMM :: [1, 0, 0, 0, 0, 0, 0]) =
        reject s!"division by 0 (insn #{slots [EXIT, 0, 0, 0, 0, 0, 0, 0]})" :=
  check_mod64_by_zero_accepted (by unfold check checkLoop checkLoop; decide) (by decide) (by decide)
    0 0

end BpfVerifier

end Morgan
