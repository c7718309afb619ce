import Mathlib
import Morgan.Controllers.Budget

/-!
# What a budget contract pays

A plan allows a payment `p` when the witnesses satisfy, one each and in order, the conditions on a
path of the plan from its root to the leaf `Pay p` (`PaidBy`).  Applying a witness only moves the
plan down such paths (`PaidBy.of_applyWitness`) and keeps what every leaf pays
(`verify_applyWitness`).

A contract whose state holds a pending plan `e` and the difs `e` spends, then acted on by accepted
`ApplyTimestamp` and `ApplySignature` instructions (`Run`), pays at most once: every instruction
but one leaves its difs alone, and that one moves all of them to the payee of a leaf of `e` that
the witnesses of the instructions up to it reach (`contract_pays_once`).  `InitializeAccount` of a
plan that waits writes that state (`initializeAccount_writes_plan`).
-/

namespace Morgan

namespace Budget

open Rust

variable {τ : Type} [LinearOrder τ]

/-! ## Plans -/

/-- `PaidBy e ws p`: the witnesses `ws`, each with the key that signed it, satisfy one each and in
order the conditions on a path of `e` from its root to the leaf `Pay p`; the two conditions of an
`And` in either order. -/
inductive PaidBy : BudgetExpr τ → List (Witness τ × Pubkey) → Payment → Prop
  | pay (p : Payment) : PaidBy (.pay p) [] p
  | after {c : Condition τ} {sub : BudgetExpr τ} {w : Witness τ} {k : Pubkey} {ws p} :
      c.isSatisfied w k → PaidBy sub ws p → PaidBy (.after c sub) ((w, k) :: ws) p
  | orLeft {c0 c1 : Condition τ} {s0 s1 : BudgetExpr τ} {w : Witness τ} {k : Pubkey} {ws p} :
      c0.isSatisfied w k → PaidBy s0 ws p → PaidBy (.or c0 s0 c1 s1) ((w, k) :: ws) p
  | orRight {c0 c1 : Condition τ} {s0 s1 : BudgetExpr τ} {w : Witness τ} {k : Pubkey} {ws p} :
      c1.isSatisfied w k → PaidBy s1 ws p → PaidBy (.or c0 s0 c1 s1) ((w, k) :: ws) p
  | and {c0 c1 : Condition τ} {sub : BudgetExpr τ} {w0 w1 : Witness τ} {k0 k1 : Pubkey} {ws p} :
      c0.isSatisfied w0 k0 → c1.isSatisfied w1 k1 → PaidBy sub ws p →
      PaidBy (.and c0 c1 sub) ((w0, k0) :: (w1, k1) :: ws) p
  | andSwap {c0 c1 : Condition τ} {sub : BudgetExpr τ} {w0 w1 : Witness τ} {k0 k1 : Pubkey}
      {ws p} :
      c1.isSatisfied w1 k1 → c0.isSatisfied w0 k0 → PaidBy sub ws p →
      PaidBy (.and c0 c1 sub) ((w1, k1) :: (w0, k0) :: ws) p

namespace BudgetExpr

/-- The plan after witnesses, applied in order. -/
def applyWitnesses (e : BudgetExpr τ) (ws : List (Witness τ × Pubkey)) : BudgetExpr τ :=
  ws.foldl (fun e w => e.applyWitness w.1 w.2) e

@[simp] theorem applyWitnesses_nil (e : BudgetExpr τ) : e.applyWitnesses [] = e := rfl

@[simp] theorem applyWitnesses_cons (e : BudgetExpr τ) (w : Witness τ × Pubkey) (ws) :
    e.applyWitnesses (w :: ws) = (e.applyWitness w.1 w.2).applyWitnesses ws := rfl

omit [LinearOrder τ] in
theorem finalPayment_eq_some {e : BudgetExpr τ} {p : Payment} :
    e.finalPayment = some p ↔ e = .pay p := by
  cases e <;> simp [finalPayment]

theorem verify_applyWitness {e : BudgetExpr τ} {d : UInt64} (h : e.verify d) (w : Witness τ)
    (k : Pubkey) : (e.applyWitness w k).verify d := by
  cases e with
  | pay => exact h
  | after c sub =>
    rw [applyWitness]
    split_ifs <;> exact h
  | or c0 s0 c1 s1 =>
    have hs : s0.verify d ∧ s1.verify d := by simpa [verify] using h
    rw [applyWitness]
    split_ifs
    · exact hs.1
    · exact hs.2
    · exact h
  | and c0 c1 sub =>
    rw [applyWitness]
    split_ifs <;> exact h

theorem verify_applyWitnesses {e : BudgetExpr τ} {d : UInt64} (h : e.verify d)
    (ws : List (Witness τ × Pubkey)) : (e.applyWitnesses ws).verify d := by
  induction ws generalizing e with
  | nil => exact h
  | cons w ws ih => exact ih (verify_applyWitness h w.1 w.2)

omit [LinearOrder τ] in
theorem difs_eq_of_verify_pay {p : Payment} {d : UInt64} (h : (pay p : BudgetExpr τ).verify d) :
    p.difs = d := by
  simpa [verify] using h

end BudgetExpr

/-- A witness takes the plan one step down a path: what the plan it leaves allows, the plan allowed
already, or allows with this witness first. -/
theorem PaidBy.of_applyWitness {e : BudgetExpr τ} {w : Witness τ} {k : Pubkey}
    {ws : List (Witness τ × Pubkey)} {p : Payment} (h : PaidBy (e.applyWitness w k) ws p) :
    PaidBy e ws p ∨ PaidBy e ((w, k) :: ws) p := by
  cases e with
  | pay q => exact .inl h
  | after c sub =>
    by_cases hc : c.isSatisfied w k
    · rw [BudgetExpr.applyWitness, if_pos hc] at h
      exact .inr (.after hc h)
    · rw [BudgetExpr.applyWitness, if_neg hc] at h
      exact .inl h
  | or c0 s0 c1 s1 =>
    by_cases h0 : c0.isSatisfied w k
    · rw [BudgetExpr.applyWitness, if_pos h0] at h
      exact .inr (.orLeft h0 h)
    by_cases h1 : c1.isSatisfied w k
    · rw [BudgetExpr.applyWitness, if_neg h0, if_pos h1] at h
      exact .inr (.orRight h1 h)
    · rw [BudgetExpr.applyWitness, if_neg h0, if_neg h1] at h
      exact .inl h
  | and c0 c1 sub =>
    -- a satisfied condition leaves an `After` of the other one, which the next witness passes
    by_cases h0 : c0.isSatisfied w k
    · rw [BudgetExpr.applyWitness, if_pos h0] at h
      cases h with
      | after h1 hsub => exact .inr (.and h0 h1 hsub)
    by_cases h1 : c1.isSatisfied w k
    · rw [BudgetExpr.applyWitness, if_neg h0, if_pos h1] at h
      cases h with
      | after h0' hsub => exact .inr (.andSwap h1 h0' hsub)
    · rw [BudgetExpr.applyWitness, if_neg h0, if_neg h1] at h
      exact .inl h

/-- What the plan left by witnesses allows, the plan allowed with some of those witnesses, in
order, first. -/
theorem PaidBy.of_applyWitnesses (e : BudgetExpr τ) {ws ws' : List (Witness τ × Pubkey)}
    {p : Payment} (h : PaidBy (e.applyWitnesses ws) ws' p) :
    ∃ ws'', PaidBy e ws'' p ∧ ws''.Sublist (ws ++ ws') := by
  induction ws generalizing e with
  | nil => exact ⟨ws', h, .refl _⟩
  | cons w ws ih =>
    obtain ⟨ws'', h'', hsub⟩ := ih _ h
    rcases PaidBy.of_applyWitness h'' with h1 | h1
    · exact ⟨ws'', h1, hsub.cons w⟩
    · exact ⟨w :: ws'', h1, hsub.cons_cons w⟩

/-! ## The processor -/

theorem payOut_eq_ok {ks ks' : List KeyedAccount} {dest : Nat} {difs : UInt64} (hdest : dest ≠ 1)
    (h : payOut ks dest difs = .ok ks') :
    ∃ k1 k, ks[1]? = some k1 ∧ ks[dest]? = some k ∧
      ks' = (ks.set 1 { k1 with account := { k1.account with difs := k1.account.difs - difs } }).set
        dest { k with account := { k.account with difs := k.account.difs + difs } } := by
  simp only [payOut, Outcome.bind_eq_ok, Outcome.ofOption_eq_ok, updateAccount_eq_some] at h
  obtain ⟨_, ⟨k1, hk1, rfl⟩, k, hk, rfl⟩ := h
  rw [List.getElem?_set_ne (Ne.symm hdest)] at hk
  exact ⟨k1, k, hk1, hk, rfl⟩

omit [LinearOrder τ] in
theorem serializeAt_eq_ok {codec : Codec τ} {ks ks' : List KeyedAccount} {i : Nat}
    {st : BudgetState τ} (h : serializeAt codec ks i st = .ok ks') :
    ∃ k data, ks[i]? = some k ∧ codec.deserializeState data = some st ∧
      ks' = ks.set i { k with account := { k.account with data } } := by
  simp only [serializeAt, Outcome.bind_eq_ok, Outcome.ofOption_eq_ok] at h
  obtain ⟨k, hk, h⟩ := h
  split at h
  · rename_i data hdata
    exact ⟨k, data, hk, codec.readsBack st _ data hdata, (Outcome.ok.inj h).symm⟩
  · cases h

/-- What applying a witness of `key` to a pending plan `e` may do: leave a plan that still waits,
with the keyed accounts unchanged, or a payment, made from the contract to a keyed account other
than the contract whose key is the payee. -/
def Applied (e : BudgetExpr τ) (w : Witness τ) (key : Pubkey) (st : BudgetState τ)
    (ks : List KeyedAccount) (r : BudgetState τ × List KeyedAccount) : Prop :=
  ((e.applyWitness w key).finalPayment = none ∧
      r = ({ st with pendingBudget := some (e.applyWitness w key) }, ks)) ∨
    ∃ p j k ks', e.applyWitness w key = .pay p ∧ j ≠ 1 ∧ ks[j]? = some k ∧ k.key = p.payee ∧
      payOut ks j p.difs = .ok ks' ∧ r = ({ st with pendingBudget := none }, ks')

/-- The common end of `apply_signature` and `apply_timestamp`: a payment goes to
`keyed_accounts[2]`, which must be the payee. -/
theorem applied_of_destination {e : BudgetExpr τ} {w : Witness τ} {key : Pubkey}
    {st : BudgetState τ} {ks : List KeyedAccount} {r} {p : Payment}
    (hp : e.applyWitness w key = .pay p)
    (h : (do
      let k2 ← Outcome.ofOption ks[2]?
      if p.payee ≠ k2.unsignedKey then .err .destinationMissing
      else do
        let ks ← payOut ks 2 p.difs
        .ok ({ st with pendingBudget := none }, ks)) = Outcome.ok r) :
    Applied e w key st ks r := by
  simp only [Outcome.bind_eq_ok, Outcome.ofOption_eq_ok] at h
  obtain ⟨k2, hk2, h⟩ := h
  split_ifs at h with hne
  simp only [Outcome.bind_eq_ok] at h
  obtain ⟨ks', hpay, h⟩ := h
  exact .inr ⟨p, 2, k2, ks', hp, by decide, hk2, (not_not.1 hne).symm, hpay,
    (Outcome.ok.inj h).symm⟩

theorem applySignature_eq_ok {st : BudgetState τ} {e : BudgetExpr τ} {ks : List KeyedAccount}
    {r : BudgetState τ × List KeyedAccount} (hst : st.pendingBudget = some e)
    (h : applySignature st ks = .ok r) :
    ∃ k0 key, ks[0]? = some k0 ∧ k0.signerKey = some key ∧ Applied e .signature key st ks r := by
  simp only [applySignature, hst, Outcome.bind_eq_ok, Outcome.ofOption_eq_ok] at h
  obtain ⟨k0, hk0, key, hkey, h⟩ := h
  refine ⟨k0, key, hk0, hkey, ?_⟩
  cases hfin : (e.applyWitness .signature key).finalPayment with
  | none =>
    rw [hfin] at h
    exact .inl ⟨hfin, (Outcome.ok.inj h).symm⟩
  | some p =>
    have hp := BudgetExpr.finalPayment_eq_some.1 hfin
    simp only [hfin] at h
    split_ifs at h with hto
    · -- the signer is the payee and is paid as `keyed_accounts[0]`
      simp only [Outcome.bind_eq_ok] at h
      obtain ⟨ks', hpay, h⟩ := h
      have hpayee : k0.key = p.payee := by
        simp only [KeyedAccount.signerKey] at hto
        split at hto <;> simp_all
      exact .inr ⟨p, 0, k0, ks', hp, by decide, hk0, hpayee, hpay, (Outcome.ok.inj h).symm⟩
    · exact applied_of_destination hp h

theorem applyTimestamp_eq_ok {st : BudgetState τ} {e : BudgetExpr τ} {ks : List KeyedAccount}
    {dt : τ} {r : BudgetState τ × List KeyedAccount} (hst : st.pendingBudget = some e)
    (h : applyTimestamp st ks dt = .ok r) :
    ∃ k0 key, ks[0]? = some k0 ∧ k0.signerKey = some key ∧
      Applied e (.timestamp dt) key st ks r := by
  simp only [applyTimestamp, hst, Outcome.bind_eq_ok, Outcome.ofOption_eq_ok] at h
  obtain ⟨k0, hk0, key, hkey, h⟩ := h
  refine ⟨k0, key, hk0, hkey, ?_⟩
  cases hfin : (e.applyWitness (.timestamp dt) key).finalPayment with
  | none =>
    rw [hfin] at h
    exact .inl ⟨hfin, (Outcome.ok.inj h).symm⟩
  | some p =>
    simp only [hfin] at h
    exact applied_of_destination (BudgetExpr.finalPayment_eq_some.1 hfin) h

omit [LinearOrder τ] in
/-- The shared body of the witness instructions: a settled contract is left alone; otherwise the
first keyed account signed, the handler returned, and its state was written into the contract. -/
theorem applyWitnessInstruction_eq_ok {codec : Codec τ} {ks ks' : List KeyedAccount}
    {apply : BudgetState τ → List KeyedAccount →
      Outcome BudgetError (BudgetState τ × List KeyedAccount)}
    {k1 : KeyedAccount} {st : BudgetState τ} (hk1 : ks[1]? = some k1)
    (hst : codec.deserializeState k1.account.data = some st)
    (h : applyWitnessInstruction codec ks apply = .ok ks') :
    (st.pendingBudget = none ∧ ks' = ks) ∨
      ∃ e st' ks'', st.pendingBudget = some e ∧ apply st ks = .ok (st', ks'') ∧
        serializeAt codec ks'' 1 st' = .ok ks' := by
  simp only [applyWitnessInstruction, hk1, hst, Outcome.ofOption_some, Outcome.ok_bind] at h
  cases hpend : st.pendingBudget with
  | none =>
    rw [if_pos (by simp [BudgetState.isPending, hpend])] at h
    exact .inl ⟨rfl, (Outcome.ok.inj h).symm⟩
  | some e =>
    rw [if_neg (by simp [BudgetState.isPending, hpend])] at h
    split_ifs at h
    simp only [Outcome.bind_eq_ok, Outcome.ofOption_eq_ok] at h
    obtain ⟨_, -, h⟩ := h
    split_ifs at h
    obtain ⟨⟨st', ks''⟩, happly, h⟩ := Outcome.bind_eq_ok.1 h
    rw [Outcome.mapErr_eq_ok] at happly
    exact .inr ⟨e, st', ks'', rfl, happly, h⟩

/-! ## Calls on a contract -/

/-- `ApplyTimestamp` and `ApplySignature` are witnesses. -/
def BudgetInstruction.witness : BudgetInstruction τ → Option (Witness τ)
  | .initializeAccount _ => none
  | .applyTimestamp dt => some (.timestamp dt)
  | .applySignature => some .signature

/-- A call of the budget program: its arguments and the keyed accounts it returned. -/
structure Call where
  programId : Pubkey
  keyedAccounts : List KeyedAccount
  data : List UInt8
  tickHeight : UInt64
  result : List KeyedAccount

namespace Call

variable (codec : Codec τ) (call : Call)

/-- The program accepted the call. -/
def Accepted : Prop :=
  processInstruction codec call.programId call.keyedAccounts call.data call.tickHeight =
    .ok call.result

/-- The witness an instruction gives. -/
def instructionWitness : Option (Witness τ) :=
  (codec.deserializeInstruction call.data).bind BudgetInstruction.witness

/-- The witness of the call with the key of its first keyed account, which signed. -/
def witness : Option (Witness τ × Pubkey) := do
  let w ← call.instructionWitness codec
  let key ← call.keyedAccounts[0]? >>= KeyedAccount.signerKey
  pure (w, key)

/-- The contract, `keyed_accounts[1]`, before the call. -/
def contractBefore : Option Account := call.keyedAccounts[1]?.map (·.account)

/-- The contract after the call. -/
def contractAfter : Option Account := call.result[1]?.map (·.account)

/-- The call leaves the contract's difs alone. -/
def Keeps : Prop := call.contractAfter.map (·.difs) = call.contractBefore.map (·.difs)

/-- The call pays `p` out of the contract: the contract's difs fall by `p.difs`, and another keyed
account, whose key is the payee, gains them. -/
def Pays (p : Payment) : Prop :=
  call.contractAfter.map (·.difs) = call.contractBefore.map (·.difs - p.difs) ∧
    ∃ j k, j ≠ 1 ∧ call.keyedAccounts[j]? = some k ∧ k.key = p.payee ∧
      call.result[j]?.map (·.account.difs) = some (k.account.difs + p.difs)

end Call

/-- Accepted `ApplyTimestamp` and `ApplySignature` calls, one after another, on one contract:
each finds the contract, at index 1, as the call before it left it. -/
inductive Run (codec : Codec τ) : Account → List Call → Account → Prop
  | nil (c : Account) : Run codec c [] c
  | cons {c c' c'' : Account} {call : Call} {calls : List Call}
      (hwitness : (call.instructionWitness codec).isSome) (hok : call.Accepted codec)
      (hbefore : call.contractBefore = some c) (hafter : call.contractAfter = some c')
      (hrest : Run codec c' calls c'') : Run codec c (call :: calls) c''

section Step

variable {codec : Codec τ} {call : Call}

/-- An accepted witness instruction runs the shared body with a handler that applies its
witness. -/
theorem Call.accepted_apply {w : Witness τ} (hw : call.instructionWitness codec = some w)
    (hok : call.Accepted codec) :
    ∃ apply, applyWitnessInstruction codec call.keyedAccounts apply = .ok call.result ∧
      ∀ st e ks r, st.pendingBudget = some e → apply st ks = .ok r →
        ∃ k0 key, ks[0]? = some k0 ∧ k0.signerKey = some key ∧ Applied e w key st ks r := by
  unfold Call.instructionWitness at hw
  unfold Call.Accepted processInstruction at hok
  cases hins : codec.deserializeInstruction call.data with
  | none => simp [hins] at hw
  | some ins =>
    rw [hins] at hok hw
    cases ins with
    | initializeAccount => cases hw
    | applyTimestamp dt =>
      cases hw
      exact ⟨_, hok, fun _ _ _ _ hst h => applyTimestamp_eq_ok hst h⟩
    | applySignature =>
      cases hw
      exact ⟨_, hok, fun _ _ _ _ hst h => applySignature_eq_ok hst h⟩

theorem Call.keyedAccount_of_before {c : Account} (hbefore : call.contractBefore = some c) :
    ∃ k1, call.keyedAccounts[1]? = some k1 ∧ k1.account = c := by
  simpa [Call.contractBefore] using hbefore

/-- A call on a settled contract returns the keyed accounts as they were. -/
theorem Call.result_of_settled {c : Account} {st : BudgetState τ}
    (hwitness : (call.instructionWitness codec).isSome) (hok : call.Accepted codec)
    (hbefore : call.contractBefore = some c) (hst : codec.deserializeState c.data = some st)
    (hnone : st.pendingBudget = none) : call.result = call.keyedAccounts := by
  obtain ⟨w, hw⟩ := Option.isSome_iff_exists.1 hwitness
  obtain ⟨apply, happly, hspec⟩ := call.accepted_apply hw hok
  obtain ⟨k1, hk1, rfl⟩ := call.keyedAccount_of_before hbefore
  rcases applyWitnessInstruction_eq_ok hk1 hst happly with ⟨-, h⟩ | ⟨e, -, -, hpend, -⟩
  · exact h
  · rw [hnone] at hpend
    cases hpend

/-- A call on a contract whose plan `e` is pending applies the call's witness to it: the plan that
results still waits and is written back, the difs kept, or is a payment, which the call makes,
leaving the contract settled. -/
theorem Call.step_pending {c c' : Account} {e : BudgetExpr τ}
    (hwitness : (call.instructionWitness codec).isSome) (hok : call.Accepted codec)
    (hbefore : call.contractBefore = some c) (hafter : call.contractAfter = some c')
    (hst : codec.deserializeState c.data = some ⟨true, some e⟩) :
    ∃ w key, call.witness codec = some (w, key) ∧
      (((e.applyWitness w key).finalPayment = none ∧ call.Keeps ∧
          codec.deserializeState c'.data = some ⟨true, some (e.applyWitness w key)⟩) ∨
        ∃ p, e.applyWitness w key = .pay p ∧ call.Pays p ∧
          codec.deserializeState c'.data = some ⟨true, none⟩) := by
  obtain ⟨w, hw⟩ := Option.isSome_iff_exists.1 hwitness
  obtain ⟨apply, happly, hspec⟩ := call.accepted_apply hw hok
  obtain ⟨k1, hk1, rfl⟩ := call.keyedAccount_of_before hbefore
  rcases applyWitnessInstruction_eq_ok hk1 hst happly with ⟨hnone, -⟩ | ⟨_, st', ks'', he, hap, hser⟩
  · cases hnone
  cases he
  obtain ⟨k0, key, hk0, hkey, happlied⟩ := hspec _ _ _ _ rfl hap
  refine ⟨w, key, by simp [Call.witness, hw, hk0, hkey], ?_⟩
  obtain ⟨k, data, hk, hdata, hres⟩ := serializeAt_eq_ok hser
  rcases happlied with ⟨hfin, hr⟩ | ⟨p, j, kj, ks', hp, hj, hkj, hpayee, hpay, hr⟩
  · -- the plan still waits: only the contract's data changes
    cases hr
    rw [hk1] at hk
    cases hk
    have hafter' : call.contractAfter = some { k1.account with data } := by
      rw [Call.contractAfter, hres, List.getElem?_set_self', hk1]
      rfl
    rw [hafter', Option.some.injEq] at hafter
    subst hafter
    refine .inl ⟨hfin, ?_, hdata⟩
    rw [Call.Keeps, hafter', Call.contractBefore, hk1]
    rfl
  · -- the plan is a payment: the contract is debited, `keyed_accounts[j]` credited
    obtain ⟨k1', kj', hk1', hkj', rfl⟩ := payOut_eq_ok hj hpay
    cases hr
    rw [hk1] at hk1'
    rw [hkj] at hkj'
    cases hk1'
    cases hkj'
    rw [List.getElem?_set_ne hj, List.getElem?_set_self', hk1] at hk
    obtain rfl := (Option.some.inj hk).symm
    have hafter' : call.contractAfter =
        some { k1.account with difs := k1.account.difs - p.difs, data } := by
      rw [Call.contractAfter, hres, List.getElem?_set_self', List.getElem?_set_ne hj,
        List.getElem?_set_self', hk1]
      rfl
    rw [hafter', Option.some.injEq] at hafter
    subst hafter
    refine .inr ⟨p, hp, ⟨?_, j, kj, hj, hkj, hpayee, ?_⟩, hdata⟩
    · rw [hafter', Call.contractBefore, hk1]
      rfl
    · rw [hres, List.getElem?_set_ne hj.symm, List.getElem?_set_self', List.getElem?_set_ne hj.symm,
        hkj]
      rfl

end Step

section Run

variable {codec : Codec τ}

/-- On a settled contract every call of a run returns the keyed accounts as they were. -/
theorem Run.keeps_of_settled {c c' : Account} {calls : List Call} (hrun : Run codec c calls c')
    {st : BudgetState τ} (hst : codec.deserializeState c.data = some st)
    (hnone : st.pendingBudget = none) : ∀ call ∈ calls, call.Keeps := by
  induction hrun with
  | nil => simp
  | @cons c c₁ c₂ call calls hwitness hok hbefore hafter _ ih =>
    have hres := Call.result_of_settled hwitness hok hbefore hst hnone
    have hsame : call.contractAfter = call.contractBefore := by
      simp [Call.contractAfter, Call.contractBefore, hres]
    rw [hsame, hbefore, Option.some.injEq] at hafter
    subst hafter
    refine List.forall_mem_cons.2 ⟨?_, ih hst⟩
    simp [Call.Keeps, hsame]

/-- The run lemma: no call of the run changes the contract's difs, or exactly one pays, and the
witnesses of the calls up to it leave the plan that payment. -/
theorem Run.pays_once {c c' : Account} {calls : List Call} {e : BudgetExpr τ}
    (hrun : Run codec c calls c') (hst : codec.deserializeState c.data = some ⟨true, some e⟩) :
    (∀ call ∈ calls, call.Keeps) ∨
      ∃ pre call post p, calls = pre ++ call :: post ∧ (∀ x ∈ pre, x.Keeps) ∧ call.Pays p ∧
        (∀ x ∈ post, x.Keeps) ∧
        e.applyWitnesses ((pre ++ [call]).filterMap (·.witness codec)) = .pay p := by
  induction hrun generalizing e with
  | nil => exact .inl (by simp)
  | cons hwitness hok hbefore hafter hrest ih =>
    obtain ⟨w, key, hwit, ⟨-, hkeeps, hst'⟩ | ⟨p, hp, hpays, hsettled⟩⟩ :=
      Call.step_pending hwitness hok hbefore hafter hst
    · -- the plan still waits: the payment, if any, comes later in the run
      rcases ih hst' with hall | ⟨pre, call', post, p, rfl, hpre, hpays, hpost, hplan⟩
      · exact .inl (List.forall_mem_cons.2 ⟨hkeeps, hall⟩)
      · refine .inr ⟨_ :: pre, call', post, p, rfl, List.forall_mem_cons.2 ⟨hkeeps, hpre⟩, hpays,
          hpost, ?_⟩
        simpa [hwit] using hplan
    · -- this call pays, and the contract is settled for the rest of the run
      refine .inr ⟨[], _, _, p, rfl, by simp, hpays, hrest.keeps_of_settled hsettled rfl, ?_⟩
      simpa [hwit] using hp

end Run

/-- A contract whose state holds a pending plan `e` and the difs `e` spends, acted on by accepted
`ApplyTimestamp` and `ApplySignature` instructions, pays at most once: no call changes its difs,
or exactly one does, paying all of them to the payee of a leaf of `e` whose path the witnesses of
the calls up to it satisfy, each condition by a call of its own, in the order of the path. -/
theorem contract_pays_once {codec : Codec τ} {e : BudgetExpr τ} {c c' : Account}
    {calls : List Call} (hinit : codec.deserializeState c.data = some ⟨true, some e⟩)
    (hverify : e.verify c.difs) (hrun : Run codec c calls c') :
    (∀ call ∈ calls, call.Keeps) ∨
      ∃ pre call post p ws, calls = pre ++ call :: post ∧ (∀ x ∈ pre, x.Keeps) ∧ call.Pays p ∧
        (∀ x ∈ post, x.Keeps) ∧ p.difs = c.difs ∧ PaidBy e ws p ∧
        ws.Sublist ((pre ++ [call]).filterMap (·.witness codec)) := by
  rcases hrun.pays_once hinit with hall | ⟨pre, call, post, p, rfl, hpre, hpays, hpost, hplan⟩
  · exact .inl hall
  have hpaid : PaidBy (e.applyWitnesses ((pre ++ [call]).filterMap (·.witness codec))) [] p :=
    hplan ▸ .pay p
  obtain ⟨ws, hws, hsub⟩ := PaidBy.of_applyWitnesses e hpaid
  have hdifs : p.difs = c.difs :=
    BudgetExpr.difs_eq_of_verify_pay (hplan ▸ BudgetExpr.verify_applyWitnesses hverify _)
  exact .inr ⟨pre, call, post, p, ws, rfl, hpre, hpays, hpost, hdifs, hws, by simpa using hsub⟩

/-- A plan that pays 5 to the key of 3s once the key of 1s signs. -/
def signedPlan : BudgetExpr Nat :=
  .after (.signature ⟨Vector.replicate 32 1⟩) (.pay ⟨5, ⟨Vector.replicate 32 3⟩⟩)

/-- A codec for the two states of a contract of one plan: `[1]` is the plan pending and `[2]`
the contract settled; `[0]` is `ApplySignature`. -/
def planCodec (e : BudgetExpr Nat) : Codec Nat where
  deserializeInstruction data := if data = [0] then some .applySignature else none
  deserializeState data :=
    if data = [1] then some ⟨true, some e⟩ else if data = [2] then some ⟨true, none⟩ else none
  serializeInto st _ :=
    if st = ⟨true, some e⟩ then some [1] else if st = ⟨true, none⟩ then some [2] else none
  readsBack st _ data h := by
    split_ifs at h with h1 h2
    · cases h
      simp [h1]
    · cases h
      simp [h2]

/-- The key of 1s signs `ApplySignature` on the contract of `signedPlan`, holding 5, with the payee
as the third keyed account. -/
def signedCall : Call where
  programId := default
  keyedAccounts :=
    [⟨⟨Vector.replicate 32 1⟩, true, ⟨10, 0, [], default, false⟩⟩,
     ⟨⟨Vector.replicate 32 2⟩, false, ⟨5, 0, [1], default, false⟩⟩,
     ⟨⟨Vector.replicate 32 3⟩, false, ⟨0, 0, [], default, false⟩⟩]
  data := [0]
  tickHeight := 0
  result :=
    [⟨⟨Vector.replicate 32 1⟩, true, ⟨10, 0, [], default, false⟩⟩,
     ⟨⟨Vector.replicate 32 2⟩, false, ⟨0, 0, [2], default, false⟩⟩,
     ⟨⟨Vector.replicate 32 3⟩, false, ⟨5, 0, [], default, false⟩⟩]

theorem contract_pays_once_signed :
    (planCodec signedPlan).deserializeState [1] = some ⟨true, some signedPlan⟩ ∧
      signedPlan.verify 5 ∧
      Run (planCodec signedPlan) ⟨5, 0, [1], default, false⟩ [signedCall]
        ⟨0, 0, [2], default, false⟩ ∧
      ((∀ call ∈ [signedCall], call.Keeps) ∨
        ∃ pre call post p ws, [signedCall] = pre ++ call :: post ∧ (∀ x ∈ pre, x.Keeps) ∧
          call.Pays p ∧ (∀ x ∈ post, x.Keeps) ∧ p.difs = 5 ∧ PaidBy signedPlan ws p ∧
          ws.Sublist ((pre ++ [call]).filterMap (·.witness (planCodec signedPlan)))) := by
  have hrun : Run (planCodec signedPlan) ⟨5, 0, [1], default, false⟩ [signedCall]
      ⟨0, 0, [2], default, false⟩ :=
    .cons (by decide) (by unfold Call.Accepted; decide) rfl rfl (.nil _)
  exact ⟨by decide, by decide, hrun, contract_pays_once (by decide) (by decide) hrun⟩

/-- `InitializeAccount` of a plan that waits for a witness writes the plan, pending, into the state
of `keyed_accounts[0]`, the contract, and changes nothing else. -/
theorem initializeAccount_writes_plan {codec : Codec τ} {programId : Pubkey}
    {ks ks' : List KeyedAccount} {data : List UInt8} {tickHeight : UInt64} {e : BudgetExpr τ}
    (hins : codec.deserializeInstruction data = some (.initializeAccount e))
    (hwait : e.finalPayment = none)
    (h : processInstruction codec programId ks data tickHeight = .ok ks') :
    ∃ k data', ks[0]? = some k ∧ codec.deserializeState data' = some ⟨true, some e⟩ ∧
      ks' = ks.set 0 { k with account := { k.account with data := data' } } := by
  simp only [processInstruction, hins, hwait, Outcome.bind_eq_ok, Outcome.ofOption_eq_ok] at h
  obtain ⟨k0, -, h⟩ := h
  split_ifs at h
  exact serializeAt_eq_ok h

end Budget

end Morgan
