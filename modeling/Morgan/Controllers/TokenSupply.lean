import Morgan.Controllers.TokenProof
import Morgan.Lib.AssocMap

/-!
# The token program over runs

The accounts the token program acts on are those of a bank, a map from keys to accounts
(`TokenWorld`); a key with no entry has the default account, as the loader reads it.  In each
account the program sees a `TokenState` (`TokenWorld.state`).  What a token account holds of its
token counts towards the token's supply only when the account is not a delegate: a delegate
account keeps in its `amount` what is left of its allowance (`holding`, `TokenWorld.supply`).

An instruction names its accounts by position.  `act_of_process` reads what `process` accepted
(`process_eq_ok`) as an `Act` on the states of the world named by key, on distinct keys: the
runtime refuses a message with a key twice and an instruction with an index twice
(`has_duplicates`).

A run (`TokenRun`) starts where no account is a token account yet, and goes by two kinds of steps:

* `call`: an instruction `process` accepts, whose accounts are stored back;
* `external`: another program changes one account, within what the runtime lets it do: an account
  the token program owns keeps its owner and data (`verify_instruction`), and one it does not own
  comes to it only with zeroed data, as `CreateAccount` and `Assign` of the system program leave
  it.

The bank's removal of an account whose difs fall to zero is not modelled: the token program
moves no difs, so no instruction of it empties an account.

A run carries ghost records (`Ghost`): the supply a `NewToken` gave each token, and what was
moved through each delegate account since its last `Approve`.  The invariant `Inv` ties them to
the world, and each step keeps it (`Inv.call`, `Inv.external`).
-/

namespace Morgan

namespace Token

open Bincode

/-! ## Token states in a world of accounts -/

/-- The state the token program reads from an account. -/
def readState (account : Account) : TokenState :=
  inputState TOKEN_PROGRAM_ID ⟨default, false, account⟩

theorem inputState_eq_readState (k : KeyedAccount) :
    inputState TOKEN_PROGRAM_ID k = readState k.account := rfl

/-- What a token state holds of the token `T`: the amount of a token account of `T` that is not a
delegate. -/
def holding (T : Pubkey) : TokenState → Nat
  | .account info => if info.token = T ∧ info.delegate = none then info.amount.toNat else 0
  | _ => 0

/-- The delegate record of a token account that is a delegate. -/
def TokenState.delegate? : TokenState → Option TokenAccountDelegateInfo
  | .account info => info.delegate
  | _ => none

theorem readState_default : readState default = .invalid :=
  inputState_of_owner_ne (by decide)

/-- The accounts of a bank, by key. -/
structure TokenWorld where
  accounts : AssocMap Pubkey Account
  keys_nodup : accounts.keys.Nodup

namespace TokenWorld

/-- The account of a key; a key with no entry has the default account. -/
def account (w : TokenWorld) (key : Pubkey) : Account := (w.accounts.get? key).getD default

/-- Store an account at a key. -/
def write (w : TokenWorld) (key : Pubkey) (account : Account) : TokenWorld :=
  ⟨w.accounts.set key account, AssocMap.nodup_keys_set w.keys_nodup key account⟩

/-- The state the token program reads at a key. -/
def state (w : TokenWorld) (key : Pubkey) : TokenState := readState (w.account key)

/-- The supply of the token `T`: what the token accounts of `T` that are not delegates hold. -/
def supply (w : TokenWorld) (T : Pubkey) : Nat :=
  (w.accounts.map fun e => holding T (readState e.2)).sum

/-- The keyed accounts of an instruction: each key with its signature and its account. -/
def keyed (w : TokenWorld) (call : List (Pubkey × Bool)) : List KeyedAccount :=
  call.map fun c => ⟨c.1, c.2, w.account c.1⟩

/-- Store the accounts an instruction returns, in turn. -/
def writeBack (w : TokenWorld) : List KeyedAccount → TokenWorld
  | [] => w
  | k :: ks => (w.write k.key k.account).writeBack ks

theorem writeBack_nil (w : TokenWorld) : w.writeBack [] = w := rfl

theorem writeBack_cons (w : TokenWorld) (k : KeyedAccount) (ks : List KeyedAccount) :
    w.writeBack (k :: ks) = (w.write k.key k.account).writeBack ks := rfl

theorem account_write (w : TokenWorld) (key : Pubkey) (a : Account) :
    (w.write key a).account = Function.update w.account key a := by
  funext k
  by_cases hk : k = key
  · subst hk
    simp [account, write]
  · simp [account, write, AssocMap.get?_set_of_ne _ hk, Function.update_of_ne hk]

theorem state_write (w : TokenWorld) (key : Pubkey) (a : Account) :
    (w.write key a).state = Function.update w.state key (readState a) := by
  funext k
  by_cases hk : k = key
  · subst hk
    simp [state, account_write]
  · simp [state, account_write, Function.update_of_ne hk]

/-- Storing an account changes a supply by what the new account holds less the old one. -/
theorem supply_write (w : TokenWorld) (T key : Pubkey) (a : Account) :
    (w.write key a).supply T + holding T (w.state key) = w.supply T + holding T (readState a) := by
  have hset := AssocMap.sum_map_set (fun a => holding T (readState a)) w.keys_nodup key a
  have hold : ((w.accounts.get? key).map fun a => holding T (readState a)).getD 0 =
      holding T (w.state key) := by
    cases hget : w.accounts.get? key with
    | none => simp [state, account, hget, readState_default, holding]
    | some b => simp [state, account, hget]
  rw [hold] at hset
  exact hset

/-- Two accounts together hold at most the supply. -/
theorem holding_add_holding_le_supply (w : TokenWorld) (T : Pubkey) {k₁ k₂ : Pubkey}
    (hne : k₁ ≠ k₂) : holding T (w.state k₁) + holding T (w.state k₂) ≤ w.supply T := by
  have h₁ := supply_write w T k₁ default
  have h₂ := supply_write (w.write k₁ default) T k₂ default
  have hk₂ : (w.write k₁ default).state k₂ = w.state k₂ := by
    rw [state_write, Function.update_of_ne (Ne.symm hne)]
  have hinvalid : holding T .invalid = 0 := rfl
  rw [readState_default, hinvalid, hk₂] at h₂
  rw [readState_default, hinvalid] at h₁
  omega

theorem state_writeBack_of_not_mem (w : TokenWorld) {ks : List KeyedAccount} {key : Pubkey}
    (hkey : key ∉ ks.map (·.key)) : (w.writeBack ks).state key = w.state key := by
  induction ks generalizing w with
  | nil => rfl
  | cons k ks ih =>
    simp only [List.map_cons, List.mem_cons, not_or] at hkey
    rw [writeBack_cons, ih _ hkey.2, state_write, Function.update_of_ne hkey.1]

theorem account_writeBack_of_not_mem (w : TokenWorld) {ks : List KeyedAccount} {key : Pubkey}
    (hkey : key ∉ ks.map (·.key)) : (w.writeBack ks).account key = w.account key := by
  induction ks generalizing w with
  | nil => rfl
  | cons k ks ih =>
    simp only [List.map_cons, List.mem_cons, not_or] at hkey
    rw [writeBack_cons, ih _ hkey.2, account_write, Function.update_of_ne hkey.1]

/-- Stored on distinct keys, each account reads back as it was stored. -/
theorem map_state_writeBack (w : TokenWorld) {ks : List KeyedAccount}
    (hks : (ks.map (·.key)).Nodup) :
    (ks.map (·.key)).map (w.writeBack ks).state = ks.map fun k => readState k.account := by
  induction ks generalizing w with
  | nil => rfl
  | cons k ks ih =>
    simp only [List.map_cons, List.nodup_cons] at hks ⊢
    rw [writeBack_cons, ih _ hks.2, state_writeBack_of_not_mem _ hks.1, state_write,
      Function.update_self]

/-- Stored on distinct keys, the accounts change a supply by what they hold less what the accounts
they replace held. -/
theorem supply_writeBack (w : TokenWorld) (T : Pubkey) {ks : List KeyedAccount}
    (hks : (ks.map (·.key)).Nodup) :
    (w.writeBack ks).supply T + (ks.map fun k => holding T (w.state k.key)).sum =
      w.supply T + (ks.map fun k => holding T (readState k.account)).sum := by
  induction ks generalizing w with
  | nil => simp [writeBack_nil]
  | cons k ks ih =>
    simp only [List.map_cons, List.nodup_cons] at hks
    have hrest : (ks.map fun k' => holding T ((w.write k.key k.account).state k'.key)) =
        ks.map fun k' => holding T (w.state k'.key) := by
      refine List.map_congr_left fun k' hk' => ?_
      have hne : k'.key ≠ k.key := fun h => hks.1 (h ▸ List.mem_map_of_mem hk')
      rw [state_write, Function.update_of_ne hne]
    have hstep := supply_write w T k.key k.account
    have hih := ih (w.write k.key k.account) hks.2
    rw [hrest] at hih
    simp only [writeBack_cons, List.map_cons, List.sum_cons]
    omega

/-- Stored on distinct keys, accounts that keep their owners leave every owner. -/
theorem owner_writeBack (w : TokenWorld) {ks : List KeyedAccount} (hks : (ks.map (·.key)).Nodup)
    (howner : ∀ k ∈ ks, k.account.owner = (w.account k.key).owner) (key : Pubkey) :
    ((w.writeBack ks).account key).owner = (w.account key).owner := by
  induction ks generalizing w with
  | nil => rfl
  | cons k ks ih =>
    simp only [List.map_cons, List.nodup_cons] at hks
    have howner' : ∀ k' ∈ ks, k'.account.owner = ((w.write k.key k.account).account k'.key).owner := by
      intro k' hk'
      have hne : k'.key ≠ k.key := fun h => hks.1 (h ▸ List.mem_map_of_mem hk')
      rw [account_write, Function.update_of_ne hne]
      exact howner k' (List.mem_cons_of_mem _ hk')
    rw [writeBack_cons, ih _ hks.2 howner', account_write]
    by_cases hkey : key = k.key
    · subst hkey
      rw [Function.update_self]
      exact howner k List.mem_cons_self
    · rw [Function.update_of_ne hkey]

end TokenWorld

/-! ## What an accepted instruction does, by key -/

/-- What an instruction the program accepts does to the states of its accounts, named by their
keys: `keys` are the instruction's keys, the first of them the signer's, and `V` and `V'` the
states before and after. -/
def Act (keys : List Pubkey) (V V' : Pubkey → TokenState) : TokenInstruction → Prop
  | .newToken tokenInfo =>
    ∃ tokenKey destKey dest token, keys = [tokenKey, destKey] ∧ tokenKey ≠ destKey ∧
      V tokenKey = .unallocated ∧ V destKey = .account dest ∧ dest.token = tokenKey ∧
      dest.delegate = none ∧ (∀ x, token ≠ .account x) ∧ token ≠ .unallocated ∧
      V' = Function.update (Function.update V destKey
        (.account { dest with amount := tokenInfo.supply })) tokenKey token
  | .newTokenAccount =>
    ∃ key new, keys[0]? = some key ∧ V key = .unallocated ∧
      (new = .invalid ∨ ∃ token owner delegate, new = .account ⟨token, owner, 0, delegate⟩ ∧
        (delegate = none ∨ ∃ source, delegate = some ⟨source, 0⟩)) ∧
      V' = Function.update V key new
  | .transfer amount =>
    ∃ sourceKey destKey source dest, keys[1]? = some sourceKey ∧ keys[2]? = some destKey ∧
      sourceKey ≠ destKey ∧ V sourceKey = .account source ∧ V destKey = .account dest ∧
      source.token = dest.token ∧ dest.delegate = none ∧ keys[0]? = some source.owner ∧
      amount ≤ source.amount ∧
      ((source.delegate = none ∧
          V' = Function.update (Function.update V sourceKey
            (.account { source with amount := source.amount - amount })) destKey
            (.account { dest with amount := dest.amount + amount })) ∨
        ∃ delegateInfo paying, source.delegate = some delegateInfo ∧
          keys[3]? = some delegateInfo.source ∧ delegateInfo.source ≠ sourceKey ∧
          delegateInfo.source ≠ destKey ∧ V delegateInfo.source = .account paying ∧
          paying.token = source.token ∧ amount ≤ paying.amount ∧
          V' = Function.update (Function.update (Function.update V sourceKey
            (.account { source with amount := source.amount - amount })) delegateInfo.source
            (.account { paying with amount := paying.amount - amount })) destKey
            (.account { dest with amount := dest.amount + amount }))
  | .approve amount =>
    ∃ delegateKey source delegateAccount delegateInfo, keys[1]? = some delegateInfo.source ∧
      keys[2]? = some delegateKey ∧ delegateInfo.source ≠ delegateKey ∧
      V delegateInfo.source = .account source ∧
      V delegateKey = .account delegateAccount ∧ source.token = delegateAccount.token ∧
      keys[0]? = some source.owner ∧ source.delegate = none ∧
      delegateAccount.delegate = some delegateInfo ∧
      V' = Function.update V delegateKey (.account { delegateAccount with
        amount, delegate := some ⟨delegateInfo.source, amount⟩ })
  | .setOwner =>
    ∃ sourceKey owner source, keys[1]? = some sourceKey ∧ keys[2]? = some owner ∧
      V sourceKey = .account source ∧ keys[0]? = some source.owner ∧
      V' = Function.update V sourceKey (.account { source with owner })

/-! ## From positions to keys -/

section Calls

variable {w : TokenWorld} {call : List (Pubkey × Bool)}

theorem map_key_keyed : (w.keyed call).map (·.key) = call.map Prod.fst := by
  simp [TokenWorld.keyed]

theorem map_inputState_keyed :
    (w.keyed call).map (inputState TOKEN_PROGRAM_ID) = (call.map Prod.fst).map w.state := by
  simp [TokenWorld.keyed, inputState_eq_readState, TokenWorld.state]

theorem signerKey_keyed {key : Pubkey} (h : signerKey (w.keyed call) = .ok key) :
    (call.map Prod.fst)[0]? = some key := by
  obtain ⟨k, hk, hkey⟩ := signerKey_eq_ok h
  simp only [TokenWorld.keyed, List.getElem?_map, Option.map_eq_some_iff] at hk
  obtain ⟨c, hc, rfl⟩ := hk
  simp only [List.getElem?_map, hc, Option.map_some, Option.some.injEq]
  unfold KeyedAccount.signerKey at hkey
  split at hkey
  · exact Option.some.inj hkey
  · cases hkey

theorem keyAt_keyed {i : Nat} {key : Pubkey} (h : keyAt (w.keyed call) i = .ok key) :
    (call.map Prod.fst)[i]? = some key := by
  obtain ⟨k, hk, rfl⟩ := keyAt_eq_ok h
  simp only [TokenWorld.keyed, List.getElem?_map, Option.map_eq_some_iff] at hk
  obtain ⟨c, hc, rfl⟩ := hk
  simp [hc, KeyedAccount.unsignedKey]

/-- A listed state is the state of the key at its position. -/
theorem getElem?_map_state {ks : List Pubkey} {V : Pubkey → TokenState} {i : Nat}
    {x : TokenState} (h : (ks.map V)[i]? = some x) : ∃ key, ks[i]? = some key ∧ V key = x := by
  simpa [List.getElem?_map, Option.map_eq_some_iff] using h

theorem update_of_not_mem {ks : List Pubkey} {V : Pubkey → TokenState} {i : Nat} {key k : Pubkey}
    (hkey : ks[i]? = some key) (hk : k ∉ ks) (x : TokenState) :
    Function.update V key x k = V k := by
  have hne : k ≠ key := fun h => hk (by rw [h]; exact List.mem_of_getElem? hkey)
  exact Function.update_of_ne hne x V

/-- An accepted instruction returns its accounts on the keys it was given, with their owners. -/
theorem keys_of_process {input : List UInt8} {info' : List KeyedAccount}
    (h : process TOKEN_PROGRAM_ID (w.keyed call) input = .ok info') :
    info'.map (·.key) = call.map Prod.fst ∧
      ∀ k ∈ info', k.account.owner = (w.account k.key).owner := by
  obtain ⟨-, -, -, hdata, -⟩ := process_eq_ok h
  have hdata' : info'.map (fun k => (k.key, k.account.owner)) =
      (w.keyed call).map (fun k => (k.key, k.account.owner)) := by
    have := congrArg (List.map fun k => (k.key, k.account.owner)) hdata
    simpa [List.map_map, Function.comp_def, dataless] using this
  refine ⟨?_, fun k hk => ?_⟩
  · have := congrArg (List.map Prod.fst) hdata'
    simpa [List.map_map, Function.comp_def, TokenWorld.keyed] using this
  · have hmem : (k.key, k.account.owner) ∈ (w.keyed call).map fun k => (k.key, k.account.owner) :=
      hdata' ▸ List.mem_map_of_mem hk
    simp only [TokenWorld.keyed, List.map_map, List.mem_map, Function.comp_apply,
      Prod.mk.injEq] at hmem
    obtain ⟨c, -, hkey, hown⟩ := hmem
    rw [← hown, ← hkey]

/-- An accepted instruction on distinct keys changes a supply by what its accounts hold after it
less what they held before. -/
theorem supply_call {input : List UInt8} {info' : List KeyedAccount}
    (hcall : (call.map Prod.fst).Nodup)
    (h : process TOKEN_PROGRAM_ID (w.keyed call) input = .ok info') (T : Pubkey) :
    (w.writeBack info').supply T + ((call.map Prod.fst).map fun k => holding T (w.state k)).sum =
      w.supply T + ((call.map Prod.fst).map fun k => holding T ((w.writeBack info').state k)).sum := by
  obtain ⟨hkeys, -⟩ := keys_of_process h
  have hnodup : (info'.map (·.key)).Nodup := hkeys ▸ hcall
  have hsupply := TokenWorld.supply_writeBack w T hnodup
  have hafter := congrArg (List.map (holding T)) (TokenWorld.map_state_writeBack w hnodup)
  rw [← hkeys]
  simp only [List.map_map, Function.comp_def] at hsupply hafter ⊢
  rw [hafter]
  exact hsupply

/-- An instruction the program accepts, on distinct accounts of a world, is signed by its first
account, keeps every owner, and has its `Act` on the world's states. -/
theorem act_of_process {input : List UInt8} {info' : List KeyedAccount}
    (hcall : (call.map Prod.fst).Nodup)
    (h : process TOKEN_PROGRAM_ID (w.keyed call) input = .ok info') :
    ∃ command, deserialize TokenInstruction.deserialize input = some command ∧
      (∃ signer, call[0]? = some (signer, true)) ∧
      (∀ key, ((w.writeBack info').account key).owner = (w.account key).owner) ∧
      Act (call.map Prod.fst) w.state (w.writeBack info').state command := by
  obtain ⟨command, hcommand, ⟨first, hfirst, hsigned⟩, -, heffect⟩ := process_eq_ok h
  obtain ⟨hkeys, howner⟩ := keys_of_process h
  set ks := call.map Prod.fst with hks
  have hnodup : (info'.map (·.key)).Nodup := hkeys ▸ hcall
  refine ⟨command, hcommand, ⟨first.key, ?_⟩, TokenWorld.owner_writeBack w hnodup howner, ?_⟩
  · have h0 : (w.keyed call)[0]? = some first := hfirst
    simp only [TokenWorld.keyed, List.getElem?_map, Option.map_eq_some_iff] at h0
    obtain ⟨c, hc, rfl⟩ := h0
    simp only at hsigned
    rw [hc, ← hsigned]
  -- the states before and after, listed along the keys
  have hV : (w.keyed call).map (inputState TOKEN_PROGRAM_ID) = ks.map w.state :=
    map_inputState_keyed
  have hV' : info'.map (inputState TOKEN_PROGRAM_ID) = ks.map (w.writeBack info').state := by
    rw [← hkeys, TokenWorld.map_state_writeBack w hnodup]
    rfl
  have hoff : ∀ k, k ∉ ks → (w.writeBack info').state k = w.state k := fun k hk =>
    TokenWorld.state_writeBack_of_not_mem w (hkeys ▸ hk)
  rw [hV, hV'] at heffect
  cases command with
  | newToken tokenInfo =>
    obtain ⟨dest, token, hlen, hdest, hsigner, hdelegate, hzero, hnotAccount, hnotUnallocated,
      hafter⟩ := heffect
    obtain ⟨destKey, hdestKey, hdestState⟩ := getElem?_map_state hdest
    obtain ⟨tokenKey, htokenKey, htokenState⟩ := getElem?_map_state hzero
    have htoken : dest.token = tokenKey := by
      rw [signerKey_keyed hsigner] at htokenKey
      exact Option.some.inj htokenKey
    have hpair : ks = [tokenKey, destKey] := by
      obtain ⟨a, b, hab⟩ := List.length_eq_two.1 (by simpa using hlen)
      rw [hab] at htokenKey hdestKey
      simp only [List.getElem?_cons_zero, List.getElem?_cons_succ, Option.some.injEq] at *
      rw [hab, htokenKey, hdestKey]
    refine ⟨tokenKey, destKey, dest, token, hpair,
      List.Nodup.getElem?_ne hcall htokenKey hdestKey (by decide), htokenState, hdestState, htoken, hdelegate,
      hnotAccount, hnotUnallocated, List.eq_of_map_eq ?_ fun k (hk : k ∉ ks) => ?_⟩
    · rw [List.map_update_eq_set _ hcall htokenKey, List.map_update_eq_set _ hcall hdestKey]
      exact hafter
    · rw [hoff k hk, update_of_not_mem htokenKey hk, update_of_not_mem hdestKey hk]
  | newTokenAccount =>
    obtain ⟨new, -, hzero, hnew, hafter⟩ := heffect
    obtain ⟨key, hkey, hkeyState⟩ := getElem?_map_state hzero
    refine ⟨key, new, hkey, hkeyState, hnew, List.eq_of_map_eq ?_ fun k (hk : k ∉ ks) => ?_⟩
    · rw [List.map_update_eq_set _ hcall hkey]
      exact hafter
    · rw [hoff k hk, update_of_not_mem hkey hk]
  | transfer amount =>
    obtain ⟨source, dest, hsource, hdest, htoken, hdelegate, hsigner, hfunds, hfrom⟩ := heffect
    obtain ⟨sourceKey, hsourceKey, hsourceState⟩ := getElem?_map_state hsource
    obtain ⟨destKey, hdestKey, hdestState⟩ := getElem?_map_state hdest
    refine ⟨sourceKey, destKey, source, dest, hsourceKey, hdestKey,
      List.Nodup.getElem?_ne hcall hsourceKey hdestKey (by decide), hsourceState, hdestState, htoken,
      hdelegate, signerKey_keyed hsigner, hfunds, ?_⟩
    rcases hfrom with ⟨hnone, hafter⟩ | ⟨delegateInfo, paying, hsome, -, hpaying, hpayingToken,
      hpayingKey, hpayingFunds, hafter⟩
    · -- the signer's own account pays
      refine Or.inl ⟨hnone, List.eq_of_map_eq ?_ fun k (hk : k ∉ ks) => ?_⟩
      · rw [List.map_update_eq_set _ hcall hdestKey, List.map_update_eq_set _ hcall hsourceKey]
        exact hafter
      · rw [hoff k hk, update_of_not_mem hdestKey hk, update_of_not_mem hsourceKey hk]
    · -- a delegate spends its allowance, and its source pays
      have hsourceOf := keyAt_keyed hpayingKey
      obtain ⟨payingKey, hpayingKey', hpayingState⟩ := getElem?_map_state hpaying
      rw [hsourceOf] at hpayingKey'
      cases hpayingKey'
      refine Or.inr ⟨delegateInfo, paying, hsome, hsourceOf,
        List.Nodup.getElem?_ne hcall hsourceOf hsourceKey (by decide),
        List.Nodup.getElem?_ne hcall hsourceOf hdestKey (by decide), hpayingState, hpayingToken,
        hpayingFunds, List.eq_of_map_eq ?_ fun k (hk : k ∉ ks) => ?_⟩
      · rw [List.map_update_eq_set _ hcall hdestKey, List.map_update_eq_set _ hcall hsourceOf,
          List.map_update_eq_set _ hcall hsourceKey]
        exact hafter
      · rw [hoff k hk, update_of_not_mem hdestKey hk, update_of_not_mem hsourceOf hk,
          update_of_not_mem hsourceKey hk]
  | approve amount =>
    obtain ⟨source, delegateAccount, delegateInfo, -, hsource, hdelegateAccount, htoken, hsigner,
      hsourceDelegate, hdelegateInfo, hkey, hafter⟩ := heffect
    have hsourceOf := keyAt_keyed hkey
    obtain ⟨sourceKey, hsourceKey, hsourceState⟩ := getElem?_map_state hsource
    rw [hsourceOf] at hsourceKey
    cases hsourceKey
    obtain ⟨delegateKey, hdelegateKey, hdelegateState⟩ := getElem?_map_state hdelegateAccount
    refine ⟨delegateKey, source, delegateAccount, delegateInfo, hsourceOf, hdelegateKey,
      List.Nodup.getElem?_ne hcall hsourceOf hdelegateKey (by decide), hsourceState, hdelegateState, htoken,
      signerKey_keyed hsigner, hsourceDelegate, hdelegateInfo,
      List.eq_of_map_eq ?_ fun k (hk : k ∉ ks) => ?_⟩
    · rw [List.map_update_eq_set _ hcall hdelegateKey]
      exact hafter
    · rw [hoff k hk, update_of_not_mem hdelegateKey hk]
  | setOwner =>
    obtain ⟨source, owner, -, hsource, hsigner, howner, hafter⟩ := heffect
    obtain ⟨sourceKey, hsourceKey, hsourceState⟩ := getElem?_map_state hsource
    refine ⟨sourceKey, owner, source, hsourceKey, keyAt_keyed howner, hsourceState,
      signerKey_keyed hsigner, List.eq_of_map_eq ?_ fun k (hk : k ∉ ks) => ?_⟩
    · rw [List.map_update_eq_set _ hcall hsourceKey]
      exact hafter
    · rw [hoff k hk, update_of_not_mem hsourceKey hk]

end Calls

/-! ## What an instruction keeps

The lemmas of this section are about states alone: `V` before an instruction and `V'` after. -/

/-- Every delegate with an allowance left is a delegate of a token account that is not one. -/
def SourcesHeld (V : Pubkey → TokenState) : Prop :=
  ∀ D x delegateInfo, V D = .account x → x.delegate = some delegateInfo → 0 < x.amount.toNat →
    ∃ y, V delegateInfo.source = .account y ∧ y.delegate = none

/-- What was moved through each delegate and what it has left make its allowance, and nothing was
moved through an account that is not a delegate. -/
def MovedExact (V : Pubkey → TokenState) (moved : Pubkey → Nat) : Prop :=
  (∀ D x delegateInfo, V D = .account x → x.delegate = some delegateInfo →
    moved D + x.amount.toNat = delegateInfo.originalAmount.toNat) ∧
  ∀ D, (V D).delegate? = none → moved D = 0

/-- What an instruction mints of the token `T`: the supply of a `NewToken` of `T`. -/
def minting (T : Pubkey) (keys : List Pubkey) : TokenInstruction → Nat
  | .newToken tokenInfo => if keys[0]? = some T then tokenInfo.supply.toNat else 0
  | _ => 0

/-- The ghost records of a run: the supply a `NewToken` gave each token, and what was moved
through each delegate account since its last `Approve`. -/
structure Ghost where
  minted : Pubkey → Option UInt64
  moved : Pubkey → Nat

/-- The ghost records at the start of a run. -/
def Ghost.initial : Ghost := ⟨fun _ => none, fun _ => 0⟩

/-- What an accepted instruction on `keys`, from the states `V`, adds to the ghost records: a
`NewToken` mints the token of its first key, a transfer from a delegate counts its amount as moved
through it, and an `Approve` starts its delegate's count again. -/
def Ghost.record (g : Ghost) (keys : List Pubkey) (V : Pubkey → TokenState) :
    TokenInstruction → Ghost
  | .newToken tokenInfo =>
    match keys[0]? with
    | some tokenKey => { g with minted := Function.update g.minted tokenKey (some tokenInfo.supply) }
    | none => g
  | .transfer amount =>
    match keys[1]? with
    | some sourceKey =>
      if (V sourceKey).delegate?.isSome then
        { g with moved := Function.update g.moved sourceKey (g.moved sourceKey + amount.toNat) }
      else g
    | none => g
  | .approve _ =>
    match keys[2]? with
    | some delegateKey => { g with moved := Function.update g.moved delegateKey 0 }
    | none => g
  | .newTokenAccount | .setOwner => g

theorem holding_of_delegate (T : Pubkey) {x : TokenAccountInfo} {d : TokenAccountDelegateInfo}
    (h : x.delegate = some d) : holding T (.account x) = 0 := by
  simp [holding, h]

theorem holding_of_not_account (T : Pubkey) {s : TokenState} (h : ∀ x, s ≠ .account x) :
    holding T s = 0 := by
  cases s with
  | account x => exact absurd rfl (h x)
  | _ => rfl

/-- A transfer between two token accounts of one token keeps what they hold together. -/
theorem holding_transfer (T : Pubkey) {source dest : TokenAccountInfo} {amount : UInt64}
    (htoken : source.token = dest.token) (hdest : dest.delegate = none)
    (hsource : source.delegate = none ∨ amount = 0) (hfunds : amount ≤ source.amount)
    (hfit : dest.amount.toNat + amount.toNat < 2 ^ 64) :
    holding T (.account { source with amount := source.amount - amount }) +
        holding T (.account { dest with amount := dest.amount + amount }) =
      holding T (.account source) + holding T (.account dest) := by
  rcases hsource with hsource | rfl
  · have hsub := UInt64.toNat_sub_of_le _ _ hfunds
    have hadd : (dest.amount + amount).toNat = dest.amount.toNat + amount.toNat := by
      rw [UInt64.toNat_add, Nat.mod_eq_of_lt hfit]
    have hle := UInt64.le_iff_toNat_le.1 hfunds
    simp only [holding, hsource, hdest, htoken, hsub, hadd, and_true]
    split_ifs <;> omega
  · simp

section Act

variable {keys : List Pubkey} {V V' : Pubkey → TokenState} {command : TokenInstruction}

/-- An instruction writes only accounts that held nothing or a token account. -/
theorem Act.state_eq (hact : Act keys V V' command) {k : Pubkey} (hfree : V k ≠ .unallocated)
    (hacc : ∀ x, V k ≠ .account x) : V' k = V k := by
  cases command with
  | newToken tokenInfo =>
    obtain ⟨tokenKey, destKey, dest, token, -, -, htokenState, hdestState, -, -, -, -, rfl⟩ := hact
    simp only [Function.update_apply]
    split_ifs with h₁ h₂
    · exact absurd (h₁ ▸ htokenState) hfree
    · exact absurd (h₂ ▸ hdestState) (hacc dest)
    · rfl
  | newTokenAccount =>
    obtain ⟨key, new, -, hkeyState, -, rfl⟩ := hact
    simp only [Function.update_apply]
    split_ifs with h₁
    · exact absurd (h₁ ▸ hkeyState) hfree
    · rfl
  | transfer amount =>
    obtain ⟨sourceKey, destKey, source, dest, -, -, -, hsourceState, hdestState, -, -, -, -,
      hfrom⟩ := hact
    rcases hfrom with ⟨-, rfl⟩ | ⟨delegateInfo, paying, -, -, -, -, hpayingState, -, -, rfl⟩
    · simp only [Function.update_apply]
      split_ifs with h₁ h₂
      · exact absurd (h₁ ▸ hdestState) (hacc dest)
      · exact absurd (h₂ ▸ hsourceState) (hacc source)
      · rfl
    · simp only [Function.update_apply]
      split_ifs with h₁ h₂ h₃
      · exact absurd (h₁ ▸ hdestState) (hacc dest)
      · exact absurd (h₂ ▸ hpayingState) (hacc paying)
      · exact absurd (h₃ ▸ hsourceState) (hacc source)
      · rfl
  | approve amount =>
    obtain ⟨delegateKey, source, delegateAccount, delegateInfo, -, -, -, -, hdelegateState, -, -,
      -, -, rfl⟩ := hact
    simp only [Function.update_apply]
    split_ifs with h₁
    · exact absurd (h₁ ▸ hdelegateState) (hacc delegateAccount)
    · rfl
  | setOwner =>
    obtain ⟨sourceKey, owner, source, -, -, hsourceState, -, rfl⟩ := hact
    simp only [Function.update_apply]
    split_ifs with h₁
    · exact absurd (h₁ ▸ hsourceState) (hacc source)
    · rfl

/-- A token account that is not a delegate stays one. -/
theorem Act.nonDelegate (hact : Act keys V V' command) {k : Pubkey} {y : TokenAccountInfo}
    (hk : V k = .account y) (hy : y.delegate = none) :
    ∃ y', V' k = .account y' ∧ y'.delegate = none := by
  cases command with
  | newToken tokenInfo =>
    obtain ⟨tokenKey, destKey, dest, token, -, -, htokenState, -, -, hdelegate, -, -, rfl⟩ := hact
    simp only [Function.update_apply]
    split_ifs with h₁ h₂
    · rw [h₁, htokenState] at hk
      cases hk
    · exact ⟨_, rfl, hdelegate⟩
    · exact ⟨y, hk, hy⟩
  | newTokenAccount =>
    obtain ⟨key, new, -, hkeyState, -, rfl⟩ := hact
    simp only [Function.update_apply]
    split_ifs with h₁
    · rw [h₁, hkeyState] at hk
      cases hk
    · exact ⟨y, hk, hy⟩
  | transfer amount =>
    obtain ⟨sourceKey, destKey, source, dest, -, -, -, hsourceState, hdestState, -, -, -, -,
      hfrom⟩ := hact
    rcases hfrom with ⟨-, rfl⟩ | ⟨delegateInfo, paying, -, -, -, -, hpayingState, -, -, rfl⟩
    · simp only [Function.update_apply]
      split_ifs with h₁ h₂
      · rw [h₁, hdestState] at hk
        cases hk
        exact ⟨_, rfl, hy⟩
      · rw [h₂, hsourceState] at hk
        cases hk
        exact ⟨_, rfl, hy⟩
      · exact ⟨y, hk, hy⟩
    · simp only [Function.update_apply]
      split_ifs with h₁ h₂ h₃
      · rw [h₁, hdestState] at hk
        cases hk
        exact ⟨_, rfl, hy⟩
      · rw [h₂, hpayingState] at hk
        cases hk
        exact ⟨_, rfl, hy⟩
      · rw [h₃, hsourceState] at hk
        cases hk
        exact ⟨_, rfl, hy⟩
      · exact ⟨y, hk, hy⟩
  | approve amount =>
    obtain ⟨delegateKey, source, delegateAccount, delegateInfo, -, -, -, -, hdelegateState, -, -,
      -, hdelegateInfo, rfl⟩ := hact
    simp only [Function.update_apply]
    split_ifs with h₁
    · rw [h₁, hdelegateState] at hk
      cases hk
      rw [hdelegateInfo] at hy
      cases hy
    · exact ⟨y, hk, hy⟩
  | setOwner =>
    obtain ⟨sourceKey, owner, source, -, -, hsourceState, -, rfl⟩ := hact
    simp only [Function.update_apply]
    split_ifs with h₁
    · rw [h₁, hsourceState] at hk
      cases hk
      exact ⟨_, rfl, hy⟩
    · exact ⟨y, hk, hy⟩

/-- Every delegate with an allowance left keeps a source that is a token account and not a
delegate: an `Approve` grants an allowance only on such a source, and a delegate's source never
changes. -/
theorem Act.sourcesHeld (hact : Act keys V V' command) (hsrc : SourcesHeld V) :
    SourcesHeld V' := by
  have hnd : ∀ k y, V k = .account y → y.delegate = none →
      ∃ y', V' k = .account y' ∧ y'.delegate = none := fun k y hk hy => hact.nonDelegate hk hy
  -- a delegate that had an allowance before keeps its source
  have hkeep : ∀ D x delegateInfo, V D = .account x → x.delegate = some delegateInfo →
      0 < x.amount.toNat → ∃ y, V' delegateInfo.source = .account y ∧ y.delegate = none := by
    intro D x d hD hd hpos
    obtain ⟨y, hy, hyd⟩ := hsrc D x d hD hd hpos
    exact hnd _ y hy hyd
  intro D x d hD hd hpos
  cases command with
  | newToken tokenInfo =>
    obtain ⟨tokenKey, destKey, dest, token, -, -, -, -, -, hdelegate, hnotAccount, -, rfl⟩ := hact
    simp only [Function.update_apply] at hD
    split_ifs at hD with h₁ h₂
    · exact absurd hD (hnotAccount x)
    · cases hD
      simp [hdelegate] at hd
    · exact hkeep D x d hD hd hpos
  | newTokenAccount =>
    obtain ⟨key, new, -, -, hnew, rfl⟩ := hact
    simp only [Function.update_apply] at hD
    split_ifs at hD with h₁
    · -- a new account has no allowance
      rcases hnew with rfl | ⟨token, owner, delegate, rfl, -⟩
      · cases hD
      · cases hD
        simp at hpos
    · exact hkeep D x d hD hd hpos
  | transfer amount =>
    obtain ⟨sourceKey, destKey, source, dest, -, -, -, hsourceState, -, -, hdelegate, -, hfunds,
      hfrom⟩ := hact
    have hsourcePos : 0 < (source.amount - amount).toNat → 0 < source.amount.toNat := by
      rw [UInt64.toNat_sub_of_le _ _ hfunds]
      omega
    rcases hfrom with ⟨-, rfl⟩ | ⟨delegateInfo, paying, -, -, -, -, hpayingState, -, hpayingFunds,
      rfl⟩
    · simp only [Function.update_apply] at hD
      split_ifs at hD with h₁ h₂
      · cases hD
        simp [hdelegate] at hd
      · cases hD
        exact hkeep sourceKey source d hsourceState hd (hsourcePos hpos)
      · exact hkeep D x d hD hd hpos
    · have hpayingPos : 0 < (paying.amount - amount).toNat → 0 < paying.amount.toNat := by
        rw [UInt64.toNat_sub_of_le _ _ hpayingFunds]
        omega
      simp only [Function.update_apply] at hD
      split_ifs at hD with h₁ h₂ h₃
      · cases hD
        simp [hdelegate] at hd
      · cases hD
        exact hkeep delegateInfo.source paying d hpayingState hd (hpayingPos hpos)
      · cases hD
        exact hkeep sourceKey source d hsourceState hd (hsourcePos hpos)
      · exact hkeep D x d hD hd hpos
  | approve amount =>
    obtain ⟨delegateKey, source, delegateAccount, delegateInfo, -, -, hne, hsourceState, -, -, -,
      hsourceDelegate, -, rfl⟩ := hact
    simp only [Function.update_apply] at hD
    split_ifs at hD with h₁
    · -- the allowance is granted on the signer's own account
      cases hD
      simp only [Option.some.injEq] at hd
      subst hd
      exact hnd _ source hsourceState hsourceDelegate
    · exact hkeep D x d hD hd hpos
  | setOwner =>
    obtain ⟨sourceKey, owner, source, -, -, hsourceState, -, rfl⟩ := hact
    simp only [Function.update_apply] at hD
    split_ifs at hD with h₁
    · cases hD
      exact hkeep sourceKey source d hsourceState hd hpos
    · exact hkeep D x d hD hd hpos

/-- The source a delegate's transfer takes from is not a delegate, or the transfer moves nothing. -/
theorem paying_of_sourcesHeld (hsrc : SourcesHeld V) {sourceKey : Pubkey}
    {source paying : TokenAccountInfo} {delegateInfo : TokenAccountDelegateInfo} {amount : UInt64}
    (hsourceState : V sourceKey = .account source) (hsome : source.delegate = some delegateInfo)
    (hpayingState : V delegateInfo.source = .account paying) (hfunds : amount ≤ source.amount) :
    paying.delegate = none ∨ amount = 0 := by
  by_cases hzero : amount = 0
  · exact Or.inr hzero
  · left
    have hpos : 0 < source.amount.toNat := by
      have hne : amount.toNat ≠ 0 := fun h => hzero (UInt64.toNat_inj.1 h)
      have hle := UInt64.le_iff_toNat_le.1 hfunds
      omega
    obtain ⟨y, hy, hyd⟩ := hsrc sourceKey source delegateInfo hsourceState hsome hpos
    rw [hpayingState] at hy
    cases hy
    exact hyd

/-- What a transfer adds to its destination fits: the account that pays and the destination are
two token accounts of one token, and together hold at most what fits. -/
theorem fits_of_paying (hfit : ∀ T k₁ k₂, k₁ ≠ k₂ → holding T (V k₁) + holding T (V k₂) < 2 ^ 64)
    {payingKey destKey : Pubkey} (hne : payingKey ≠ destKey) {paying dest : TokenAccountInfo}
    {amount : UInt64} (hpayingState : V payingKey = .account paying)
    (hdestState : V destKey = .account dest) (htoken : paying.token = dest.token)
    (hdelegate : dest.delegate = none) (hpaying : paying.delegate = none ∨ amount = 0)
    (hfunds : amount ≤ paying.amount) : dest.amount.toNat + amount.toNat < 2 ^ 64 := by
  rcases hpaying with hpaying | rfl
  · have := hfit dest.token payingKey destKey hne
    have hfunds' := UInt64.le_iff_toNat_le.1 hfunds
    simp only [hpayingState, hdestState, holding, htoken, hpaying, hdelegate, and_self,
      if_true] at this
    omega
  · simpa using UInt64.toNat_lt dest.amount

/-- An instruction keeps what the accounts it names hold of a token, but for what a `NewToken`
mints: a transfer moves an amount that fits, since two accounts of a token together hold at most
its supply, and a new token's account holds nothing of it yet. -/
theorem Act.sum_holding (hact : Act keys V V' command) (hkeys : keys.Nodup)
    (hfit : ∀ T k₁ k₂, k₁ ≠ k₂ → holding T (V k₁) + holding T (V k₂) < 2 ^ 64)
    (hfresh : ∀ T, V T = .unallocated → ∀ k, holding T (V k) = 0) (hsrc : SourcesHeld V)
    (T : Pubkey) :
    (keys.map fun k => holding T (V' k)).sum =
      (keys.map fun k => holding T (V k)).sum + minting T keys command := by
  cases command with
  | newToken tokenInfo =>
    obtain ⟨tokenKey, destKey, dest, token, rfl, hne, htokenState, hdestState, htoken, hdelegate,
      hnotAccount, -, rfl⟩ := hact
    -- the account that takes the supply held nothing of the new token
    have hzero : dest.amount.toNat = 0 := by
      have := hfresh tokenKey htokenState destKey
      simpa [hdestState, holding, htoken, hdelegate] using this
    have htokenZero := holding_of_not_account T hnotAccount
    simp only [List.map_cons, List.map_nil, List.sum_cons, List.sum_nil, Function.update_self,
      Function.update_of_ne (Ne.symm hne), minting, List.getElem?_cons_zero, Option.some.injEq,
      htokenState, hdestState, htokenZero]
    by_cases hT : tokenKey = T
    · simp [holding, hT, htoken, hdelegate, hzero]
    · simp [holding, hT, htoken]
  | newTokenAccount =>
    obtain ⟨key, new, hkey, hkeyState, hnew, rfl⟩ := hact
    have h := List.sum_map_update (holding T) V hkeys (List.mem_of_getElem? hkey) new
    have hnewZero : holding T new = 0 := by
      rcases hnew with rfl | ⟨token, owner, delegate, rfl, -⟩
      · rfl
      · simp [holding]
    rw [hkeyState, hnewZero] at h
    simp only [minting]
    simpa [holding] using h
  | transfer amount =>
    obtain ⟨sourceKey, destKey, source, dest, hsourceKey, hdestKey, hne, hsourceState, hdestState,
      htoken, hdelegate, -, hfunds, hfrom⟩ := hact
    simp only [minting, Nat.add_zero]
    rcases hfrom with ⟨hnone, rfl⟩ | ⟨delegateInfo, paying, hsome, hpayingKey, hne₁, hne₂,
      hpayingState, hpayingToken, hpayingFunds, rfl⟩
    · -- the signer's own account pays
      have h₁ := List.sum_map_update (holding T) V hkeys (List.mem_of_getElem? hsourceKey)
        (.account { source with amount := source.amount - amount })
      have h₂ := List.sum_map_update (holding T)
        (Function.update V sourceKey (.account { source with amount := source.amount - amount }))
        hkeys (List.mem_of_getElem? hdestKey) (.account { dest with amount := dest.amount + amount })
      have hfit' := fits_of_paying hfit hne hsourceState hdestState htoken hdelegate (Or.inl hnone)
        hfunds
      have hmove := holding_transfer T htoken hdelegate (Or.inl hnone) hfunds hfit'
      rw [Function.update_of_ne (Ne.symm hne), hdestState] at h₂
      rw [hsourceState] at h₁
      omega
    · -- a delegate spends its allowance, and its source pays
      have h₁ := List.sum_map_update (holding T) V hkeys (List.mem_of_getElem? hsourceKey)
        (.account { source with amount := source.amount - amount })
      have h₂ := List.sum_map_update (holding T)
        (Function.update V sourceKey (.account { source with amount := source.amount - amount }))
        hkeys (List.mem_of_getElem? hpayingKey)
        (.account { paying with amount := paying.amount - amount })
      have h₃ := List.sum_map_update (holding T)
        (Function.update (Function.update V sourceKey
          (.account { source with amount := source.amount - amount })) delegateInfo.source
          (.account { paying with amount := paying.amount - amount }))
        hkeys (List.mem_of_getElem? hdestKey) (.account { dest with amount := dest.amount + amount })
      have hpaying := paying_of_sourcesHeld hsrc hsourceState hsome hpayingState hfunds
      have hfit' := fits_of_paying hfit hne₂ hpayingState hdestState (hpayingToken.trans htoken)
        hdelegate hpaying hpayingFunds
      have hmove := holding_transfer T (hpayingToken.trans htoken) hdelegate hpaying hpayingFunds
        hfit'
      have hsourceZero : holding T (.account { source with amount := source.amount - amount }) = 0 :=
        holding_of_delegate T (d := delegateInfo) hsome
      rw [Function.update_of_ne (Ne.symm hne₂), Function.update_of_ne (Ne.symm hne), hdestState]
        at h₃
      rw [Function.update_of_ne hne₁, hpayingState] at h₂
      rw [hsourceState, holding_of_delegate T hsome, hsourceZero] at h₁
      omega
  | approve amount =>
    obtain ⟨delegateKey, source, delegateAccount, delegateInfo, -, hdelegateKey, -, -,
      hdelegateState, -, -, -, hdelegateInfo, rfl⟩ := hact
    have h := List.sum_map_update (holding T) V hkeys (List.mem_of_getElem? hdelegateKey)
      (.account { delegateAccount with amount, delegate := some ⟨delegateInfo.source, amount⟩ })
    rw [hdelegateState, holding_of_delegate T hdelegateInfo,
      holding_of_delegate T (d := ⟨delegateInfo.source, amount⟩) rfl] at h
    simpa [minting] using h
  | setOwner =>
    obtain ⟨sourceKey, owner, source, hsourceKey, -, hsourceState, -, rfl⟩ := hact
    have h := List.sum_map_update (holding T) V hkeys (List.mem_of_getElem? hsourceKey)
      (.account { source with owner })
    have hsame : holding T (.account { source with owner }) = holding T (.account source) := by
      simp [holding]
    rw [hsourceState, hsame] at h
    simp only [minting, Nat.add_zero]
    omega

/-- The ghost count of what was moved through each delegate follows its allowance: a transfer
through a delegate counts what it spends, and an `Approve` grants a new allowance and starts the
count again. -/
theorem Act.movedExact (hact : Act keys V V' command) (hsrc : SourcesHeld V) {g : Ghost}
    (hmoved : MovedExact V g.moved) : MovedExact V' (g.record keys V command).moved := by
  obtain ⟨hadd, hzero⟩ := hmoved
  cases command with
  | newToken tokenInfo =>
    obtain ⟨tokenKey, destKey, dest, token, rfl, -, htokenState, hdestState, -, hdelegate,
      hnotAccount, -, rfl⟩ := hact
    refine ⟨fun D x d hD hd => ?_, fun D hD => hzero D ?_⟩
    · simp only [Function.update_apply] at hD
      split_ifs at hD with h₁ h₂
      · exact absurd hD (hnotAccount x)
      · cases hD
        simp [hdelegate] at hd
      · exact hadd D x d hD hd
    · simp only [Function.update_apply] at hD
      split_ifs at hD with h₁ h₂
      · rw [h₁, htokenState]
        rfl
      · rw [h₂, hdestState]
        exact hdelegate
      · exact hD
  | newTokenAccount =>
    obtain ⟨key, new, -, hkeyState, hnew, rfl⟩ := hact
    -- nothing was moved through an account that held nothing
    have hkeyZero : g.moved key = 0 := hzero key (by rw [hkeyState]; rfl)
    refine ⟨fun D x d hD hd => ?_, fun D hD => ?_⟩
    · simp only [Function.update_apply] at hD
      split_ifs at hD with h₁
      · rcases hnew with rfl | ⟨token, owner, delegate, rfl, hdelegate⟩
        · cases hD
        · cases hD
          rcases hdelegate with rfl | ⟨source, rfl⟩
          · cases hd
          · cases hd
            simp [Ghost.record, h₁, hkeyZero]
      · exact hadd D x d hD hd
    · simp only [Function.update_apply] at hD
      split_ifs at hD with h₁
      · rw [h₁]
        exact hkeyZero
      · exact hzero D hD
  | transfer amount =>
    obtain ⟨sourceKey, destKey, source, dest, hsourceKey, -, hne, hsourceState, hdestState, -,
      hdelegate, -, hfunds, hfrom⟩ := hact
    have hdestZero : g.moved destKey = 0 := hzero destKey (by rw [hdestState]; exact hdelegate)
    rcases hfrom with ⟨hnone, rfl⟩ | ⟨delegateInfo, paying, hsome, -, hne₁, hne₂, hpayingState, -,
      hpayingFunds, rfl⟩
    · -- the signer's own account pays: nothing is counted
      have hrecord : (g.record keys V (.transfer amount)).moved = g.moved := by
        simp [Ghost.record, hsourceKey, hsourceState, TokenState.delegate?, hnone]
      have hsourceZero : g.moved sourceKey = 0 := hzero sourceKey (by rw [hsourceState]; exact hnone)
      rw [hrecord]
      refine ⟨fun D x d hD hd => ?_, fun D hD => ?_⟩
      · simp only [Function.update_apply] at hD
        split_ifs at hD with h₁ h₂
        · cases hD
          simp [hdelegate] at hd
        · cases hD
          simp [hnone] at hd
        · exact hadd D x d hD hd
      · simp only [Function.update_apply] at hD
        split_ifs at hD with h₁ h₂
        · rw [h₁]
          exact hdestZero
        · rw [h₂]
          exact hsourceZero
        · exact hzero D hD
    · -- a delegate spends its allowance: what it spends is counted
      have hrecord : (g.record keys V (.transfer amount)).moved =
          Function.update g.moved sourceKey (g.moved sourceKey + amount.toNat) := by
        simp [Ghost.record, hsourceKey, hsourceState, TokenState.delegate?, hsome]
      have hsub := UInt64.toNat_sub_of_le _ _ hfunds
      have hfunds' := UInt64.le_iff_toNat_le.1 hfunds
      have hsourceAdd := hadd sourceKey source delegateInfo hsourceState hsome
      have hpaying := paying_of_sourcesHeld hsrc hsourceState hsome hpayingState hfunds
      rw [hrecord]
      refine ⟨fun D x d hD hd => ?_, fun D hD => ?_⟩
      · simp only [Function.update_apply] at hD
        split_ifs at hD with h₁ h₂ h₃
        · cases hD
          simp [hdelegate] at hd
        · -- the source pays only when it is not a delegate
          cases hD
          rcases hpaying with hpaying | rfl
          · simp [hpaying] at hd
          · rw [h₂, Function.update_of_ne hne₁]
            simpa using hadd _ paying d hpayingState hd
        · cases hD
          rw [hsome] at hd
          cases hd
          rw [h₃, Function.update_self]
          simp only [hsub]
          omega
        · rw [Function.update_of_ne h₃]
          exact hadd D x d hD hd
      · simp only [Function.update_apply] at hD
        split_ifs at hD with h₁ h₂ h₃
        · rw [h₁, Function.update_of_ne (Ne.symm hne)]
          exact hdestZero
        · rw [h₂, Function.update_of_ne hne₁]
          exact hzero _ (by rw [hpayingState]; exact hD)
        · simp [TokenState.delegate?, hsome] at hD
        · rw [Function.update_of_ne h₃]
          exact hzero D hD
  | approve amount =>
    obtain ⟨delegateKey, source, delegateAccount, delegateInfo, -, hdelegateKey, -, -, -, -, -,
      -, -, rfl⟩ := hact
    have hrecord : (g.record keys V (.approve amount)).moved = Function.update g.moved delegateKey 0 := by
      simp [Ghost.record, hdelegateKey]
    rw [hrecord]
    refine ⟨fun D x d hD hd => ?_, fun D hD => ?_⟩
    · simp only [Function.update_apply] at hD ⊢
      split_ifs at hD ⊢ with h₁
      · -- the new allowance, with nothing moved yet
        cases hD
        simp only [Option.some.injEq] at hd
        subst hd
        simp
      · exact hadd D x d hD hd
    · simp only [Function.update_apply] at hD ⊢
      split_ifs at hD ⊢ with h₁
      · rfl
      · exact hzero D hD
  | setOwner =>
    obtain ⟨sourceKey, owner, source, -, -, hsourceState, -, rfl⟩ := hact
    refine ⟨fun D x d hD hd => ?_, fun D hD => ?_⟩
    · simp only [Function.update_apply] at hD
      split_ifs at hD with h₁
      · cases hD
        rw [h₁]
        exact hadd sourceKey source d hsourceState hd
      · exact hadd D x d hD hd
    · simp only [Function.update_apply] at hD
      split_ifs at hD with h₁
      · rw [h₁]
        exact hzero sourceKey (by rw [hsourceState]; exact hD)
      · exact hzero D hD

/-- The amount of a token account that is not a delegate falls only in a transfer from it, signed
by its owner, or in a transfer through a delegate of it, signed by the delegate's owner. -/
theorem Act.amount_lt (hact : Act keys V V' command)
    (hfit : ∀ T k₁ k₂, k₁ ≠ k₂ → holding T (V k₁) + holding T (V k₂) < 2 ^ 64)
    (hfresh : ∀ T, V T = .unallocated → ∀ k, holding T (V k) = 0) (hsrc : SourcesHeld V)
    {k : Pubkey} {x x' : TokenAccountInfo} (hk : V k = .account x) (hx : x.delegate = none)
    (hk' : V' k = .account x') (hlt : x'.amount < x.amount) :
    ∃ amount, command = .transfer amount ∧
      ((keys[1]? = some k ∧ keys[0]? = some x.owner) ∨
        ∃ delegateKey d delegateInfo, keys[1]? = some delegateKey ∧ V delegateKey = .account d ∧
          d.delegate = some delegateInfo ∧ delegateInfo.source = k ∧ keys[0]? = some d.owner) := by
  -- an account the instruction leaves keeps its amount
  have hsame : V k = .account x' → False := by
    intro h
    rw [hk] at h
    cases h
    exact absurd hlt (UInt64.lt_irrefl _)
  -- a destination gains what it is sent, and that does not wrap
  have hgain : ∀ dest : TokenAccountInfo, ∀ amount : UInt64,
      dest.amount.toNat + amount.toNat < 2 ^ 64 → x = dest →
      x' = { dest with amount := dest.amount + amount } → False := by
    intro dest amount hfits hx hx'
    subst hx hx'
    rw [UInt64.lt_iff_toNat_lt, UInt64.toNat_add, Nat.mod_eq_of_lt hfits] at hlt
    omega
  cases command with
  | newToken tokenInfo =>
    obtain ⟨tokenKey, destKey, dest, token, -, -, htokenState, hdestState, htoken, hdelegate,
      hnotAccount, -, rfl⟩ := hact
    simp only [Function.update_apply] at hk'
    split_ifs at hk' with h₁ h₂
    · exact absurd hk' (hnotAccount x')
    · -- the account that takes the supply held nothing
      rw [h₂, hdestState] at hk
      cases hk
      cases hk'
      have hzero := hfresh tokenKey htokenState destKey
      simp [hdestState, holding, htoken, hdelegate] at hzero
      rw [UInt64.lt_iff_toNat_lt, hzero] at hlt
      omega
    · exact (hsame hk').elim
  | newTokenAccount =>
    obtain ⟨key, new, -, hkeyState, -, rfl⟩ := hact
    simp only [Function.update_apply] at hk'
    split_ifs at hk' with h₁
    · rw [h₁, hkeyState] at hk
      cases hk
    · exact (hsame hk').elim
  | transfer amount =>
    obtain ⟨sourceKey, destKey, source, dest, hsourceKey, -, hne, hsourceState, hdestState, htoken,
      hdelegate, hsigner, hfunds, hfrom⟩ := hact
    refine ⟨amount, rfl, ?_⟩
    rcases hfrom with ⟨hnone, rfl⟩ | ⟨delegateInfo, paying, hsome, -, hne₁, hne₂, hpayingState,
      hpayingToken, hpayingFunds, rfl⟩
    · simp only [Function.update_apply] at hk'
      split_ifs at hk' with h₁ h₂
      · cases hk'
        rw [h₁, hdestState] at hk
        exact (hgain dest amount (fits_of_paying hfit hne hsourceState hdestState htoken hdelegate
          (Or.inl hnone) hfunds) (TokenState.account.inj hk).symm rfl).elim
      · -- the signer's own account
        rw [h₂, hsourceState] at hk
        cases hk
        exact Or.inl ⟨h₂ ▸ hsourceKey, hsigner⟩
      · exact (hsame hk').elim
    · simp only [Function.update_apply] at hk'
      split_ifs at hk' with h₁ h₂ h₃
      · cases hk'
        rw [h₁, hdestState] at hk
        have hpaying := paying_of_sourcesHeld hsrc hsourceState hsome hpayingState hfunds
        exact (hgain dest amount (fits_of_paying hfit hne₂ hpayingState hdestState
          (hpayingToken.trans htoken) hdelegate hpaying hpayingFunds)
          (TokenState.account.inj hk).symm rfl).elim
      · -- the source of the delegate that spends
        exact Or.inr ⟨sourceKey, source, delegateInfo, hsourceKey, hsourceState, hsome, h₂.symm,
          hsigner⟩
      · rw [h₃, hsourceState] at hk
        cases hk
        rw [hsome] at hx
        cases hx
      · exact (hsame hk').elim
  | approve amount =>
    obtain ⟨delegateKey, source, delegateAccount, delegateInfo, -, -, -, -, hdelegateState, -, -,
      -, hdelegateInfo, rfl⟩ := hact
    simp only [Function.update_apply] at hk'
    split_ifs at hk' with h₁
    · rw [h₁, hdelegateState] at hk
      cases hk
      rw [hdelegateInfo] at hx
      cases hx
    · exact (hsame hk').elim
  | setOwner =>
    obtain ⟨sourceKey, owner, source, -, -, hsourceState, -, rfl⟩ := hact
    simp only [Function.update_apply] at hk'
    split_ifs at hk' with h₁
    · rw [h₁, hsourceState] at hk
      cases hk
      cases hk'
      exact absurd hlt (UInt64.lt_irrefl _)
    · exact (hsame hk').elim

/-- States where a key that is no token account becomes another that is none keep the sources
of delegates. -/
theorem SourcesHeld.update (hsrc : SourcesHeld V) {key : Pubkey} {s : TokenState}
    (hold : ∀ x, V key ≠ .account x) (hnew : ∀ x, s ≠ .account x) :
    SourcesHeld (Function.update V key s) := by
  intro D x d hD hd hpos
  have hDkey : D ≠ key := by
    rintro rfl
    rw [Function.update_self] at hD
    exact hnew x hD
  rw [Function.update_of_ne hDkey] at hD
  obtain ⟨y, hy, hyd⟩ := hsrc D x d hD hd hpos
  have hsourceKey : d.source ≠ key := by
    intro h
    rw [h] at hy
    exact hold y hy
  exact ⟨y, by rw [Function.update_of_ne hsourceKey]; exact hy, hyd⟩

/-- States where a key that is no token account becomes another that is none keep the count of
what was moved through delegates. -/
theorem MovedExact.update {moved : Pubkey → Nat} (hmoved : MovedExact V moved) {key : Pubkey}
    {s : TokenState} (hold : ∀ x, V key ≠ .account x) (hnew : ∀ x, s ≠ .account x) :
    MovedExact (Function.update V key s) moved := by
  obtain ⟨hadd, hzero⟩ := hmoved
  refine ⟨fun D x d hD hd => ?_, fun D hD => ?_⟩
  · have hDkey : D ≠ key := by
      rintro rfl
      rw [Function.update_self] at hD
      exact hnew x hD
    rw [Function.update_of_ne hDkey] at hD
    exact hadd D x d hD hd
  · by_cases hDkey : D = key
    · subst hDkey
      apply hzero
      cases hV : V D with
      | account x => exact absurd hV (hold x)
      | _ => rfl
    · rw [Function.update_of_ne hDkey] at hD
      exact hzero D hD

end Act

/-! ## Runs -/

/-- A record changes the minted supplies only at the token of a `NewToken`; any other instruction
mints nothing. -/
theorem Ghost.minted_record (g : Ghost) (keys : List Pubkey) (V : Pubkey → TokenState)
    (command : TokenInstruction) :
    ((∀ T, minting T keys command = 0) ∧ (g.record keys V command).minted = g.minted) ∨
      ∃ tokenInfo tokenKey, command = .newToken tokenInfo ∧ keys[0]? = some tokenKey ∧
        (g.record keys V command).minted =
          Function.update g.minted tokenKey (some tokenInfo.supply) := by
  cases command with
  | newToken tokenInfo =>
    cases hkey : keys[0]? with
    | none => exact Or.inl ⟨fun T => by simp [minting, hkey], by simp [Ghost.record, hkey]⟩
    | some tokenKey => exact Or.inr ⟨tokenInfo, tokenKey, rfl, rfl, by simp [Ghost.record, hkey]⟩
  | transfer amount =>
    refine Or.inl ⟨fun T => rfl, ?_⟩
    simp only [Ghost.record]
    split
    · split <;> rfl
    · rfl
  | approve amount =>
    refine Or.inl ⟨fun T => rfl, ?_⟩
    simp only [Ghost.record]
    split <;> rfl
  | newTokenAccount => exact Or.inl ⟨fun T => rfl, rfl⟩
  | setOwner => exact Or.inl ⟨fun T => rfl, rfl⟩

/-- What another program may do to an account, as the runtime lets it: an account of the token
program keeps its owner and data (`verify_instruction`), and an account of another program comes
to the token program only with zeroed data (`CreateAccount`, `Assign`). -/
def External (old new : Account) : Prop :=
  (old.owner = TOKEN_PROGRAM_ID ∧ new.owner = old.owner ∧ new.data = old.data) ∨
    (old.owner ≠ TOKEN_PROGRAM_ID ∧ (new.owner ≠ TOKEN_PROGRAM_ID ∨ ∀ b ∈ new.data, b = 0))

/-- The runs of the token program among other programs, from a world with no token account, with
their ghost records. -/
inductive TokenRun : TokenWorld → Ghost → Prop
  | genesis {w : TokenWorld} (hw : ∀ key info, w.state key ≠ .account info) :
      TokenRun w Ghost.initial
  | call {w : TokenWorld} {g : Ghost} (call : List (Pubkey × Bool)) (input : List UInt8)
      (command : TokenInstruction) (info' : List KeyedAccount) (hrun : TokenRun w g)
      (hcall : (call.map Prod.fst).Nodup)
      (hcommand : deserialize TokenInstruction.deserialize input = some command)
      (h : process TOKEN_PROGRAM_ID (w.keyed call) input = .ok info') :
      TokenRun (w.writeBack info') (g.record (call.map Prod.fst) w.state command)
  | external {w : TokenWorld} {g : Ghost} (key : Pubkey) (account : Account)
      (hrun : TokenRun w g) (hext : External (w.account key) account) :
      TokenRun (w.write key account) g

theorem readState_of_owner_ne {a : Account} (h : a.owner ≠ TOKEN_PROGRAM_ID) :
    readState a = .invalid :=
  inputState_of_owner_ne h

/-- Zeroed data reads as unallocated, or, empty, as nothing. -/
theorem readState_zeroed {a : Account} (h : ∀ b ∈ a.data, b = 0) :
    readState a = .unallocated ∨ readState a = .invalid := by
  by_cases hown : a.owner = TOKEN_PROGRAM_ID
  · cases hdata : a.data with
    | nil =>
      right
      unfold readState inputState
      rw [if_pos hown, hdata, TokenState.deserialize_nil]
    | cons b rest =>
      have hb : b = 0 := h b (by simp [hdata])
      subst hb
      exact .inl (inputState_of_deserialize hown (by rw [hdata, TokenState.deserialize_zero_cons]))
  · exact Or.inr (readState_of_owner_ne hown)

/-- Another program leaves an account of the token program with its owner and state. -/
theorem External.of_owner {old new : Account} (hext : External old new)
    (hown : old.owner = TOKEN_PROGRAM_ID) : new.owner = TOKEN_PROGRAM_ID ∧ readState new = readState old := by
  rcases hext with ⟨-, howner, hdata⟩ | ⟨hne, -⟩
  · refine ⟨howner.trans hown, ?_⟩
    unfold readState inputState
    rw [howner, hdata]
  · exact absurd hown hne

/-- An account of another program reads as nothing, and another program leaves it as nothing or
unallocated. -/
theorem External.of_owner_ne {old new : Account} (hext : External old new)
    (hown : old.owner ≠ TOKEN_PROGRAM_ID) :
    readState old = .invalid ∧ (readState new = .unallocated ∨ readState new = .invalid) := by
  rcases hext with ⟨hown', -, -⟩ | ⟨-, hnew⟩
  · exact absurd hown' hown
  · refine ⟨readState_of_owner_ne hown, ?_⟩
    rcases hnew with hnew | hnew
    · exact Or.inr (readState_of_owner_ne hnew)
    · exact readState_zeroed hnew

/-- The invariant of runs of the token program. -/
structure Inv (w : TokenWorld) (g : Ghost) : Prop where
  /-- The accounts of a minted token hold its supply, and those of any other token nothing. -/
  supply_eq : ∀ T, w.supply T = ((g.minted T).map UInt64.toNat).getD 0
  /-- A minted token's own account is the token program's, and neither unallocated nor a token
  account: no second `NewToken` mints it. -/
  minted_state : ∀ T, (g.minted T).isSome → (w.account T).owner = TOKEN_PROGRAM_ID ∧
    w.state T ≠ .unallocated ∧ ∀ x, w.state T ≠ .account x
  sourcesHeld : SourcesHeld w.state
  movedExact : MovedExact w.state g.moved

namespace Inv

variable {w : TokenWorld} {g : Ghost}

theorem holding_le_supply (w : TokenWorld) (T k : Pubkey) : holding T (w.state k) ≤ w.supply T := by
  have h := TokenWorld.supply_write w T k default
  have hinvalid : holding T .invalid = 0 := rfl
  rw [readState_default, hinvalid] at h
  omega

/-- Two accounts of a token together hold what fits in a `u64`. -/
theorem fit (hinv : Inv w g) (T k₁ k₂ : Pubkey) (hne : k₁ ≠ k₂) :
    holding T (w.state k₁) + holding T (w.state k₂) < 2 ^ 64 := by
  have hle := TokenWorld.holding_add_holding_le_supply w T hne
  have hfits : ((g.minted T).map UInt64.toNat).getD 0 < 2 ^ 64 := by
    cases g.minted T with
    | none => simp
    | some s => simpa using UInt64.toNat_lt s
  rw [hinv.supply_eq T] at hle
  omega

/-- The accounts of a token whose own account is still unallocated hold nothing of it. -/
theorem fresh (hinv : Inv w g) (T : Pubkey) (hT : w.state T = .unallocated) (k : Pubkey) :
    holding T (w.state k) = 0 := by
  have hnone : g.minted T = none := by
    cases hminted : g.minted T with
    | none => rfl
    | some s => exact absurd hT (hinv.minted_state T (by simp [hminted])).2.1
  have hle := holding_le_supply w T k
  rw [hinv.supply_eq T, hnone] at hle
  simpa using hle

theorem genesis (hw : ∀ key info, w.state key ≠ .account info) : Inv w Ghost.initial where
  supply_eq T := by
    -- no account holds anything
    refine List.sum_eq_zero fun n hn => ?_
    obtain ⟨e, he, rfl⟩ := List.mem_map.1 hn
    have hstate : readState e.2 = w.state e.1 := by
      simp [TokenWorld.state, TokenWorld.account, AssocMap.get?_of_mem w.keys_nodup he]
    rw [hstate]
    exact holding_of_not_account T (hw e.1)
  minted_state T h := by simp [Ghost.initial] at h
  sourcesHeld D x _ hD := absurd hD (hw D x)
  movedExact := ⟨fun D x _ hD => absurd hD (hw D x), fun _ _ => rfl⟩

/-- An instruction the program accepts keeps the invariant. -/
theorem call (hinv : Inv w g) {call : List (Pubkey × Bool)} {input : List UInt8}
    {command : TokenInstruction} {info' : List KeyedAccount} (hcall : (call.map Prod.fst).Nodup)
    (hcommand : deserialize TokenInstruction.deserialize input = some command)
    (h : process TOKEN_PROGRAM_ID (w.keyed call) input = .ok info') :
    Inv (w.writeBack info') (g.record (call.map Prod.fst) w.state command) := by
  obtain ⟨command', hcommand', -, howner, hact⟩ := act_of_process hcall h
  rw [hcommand] at hcommand'
  cases hcommand'
  refine ⟨fun T => ?_, fun T hT => ?_, hact.sourcesHeld hinv.sourcesHeld,
    hact.movedExact hinv.sourcesHeld hinv.movedExact⟩
  · -- the supply grows by what is minted, and only a token not minted before is
    have hsupply := supply_call hcall h T
    have hsum := hact.sum_holding hcall hinv.fit hinv.fresh hinv.sourcesHeld T
    have hold := hinv.supply_eq T
    rcases Ghost.minted_record g (call.map Prod.fst) w.state command with ⟨hzero, hrecord⟩ |
      ⟨tokenInfo, tokenKey, rfl, hkey, hrecord⟩
    · rw [hrecord, ← hold]
      rw [hzero T] at hsum
      omega
    · obtain ⟨tk, dk, dest, token, hkeys, -, htokenState, -⟩ := hact
      have htk : tk = tokenKey := by
        have := hkey
        rw [hkeys] at this
        simpa using this
      subst htk
      simp only [minting, hkey, Option.some.injEq] at hsum
      rw [hrecord]
      by_cases hT : tk = T
      · subst hT
        have hfresh := hinv.fresh tk htokenState
        have hzero : w.supply tk = 0 := by
          cases hminted : g.minted tk with
          | none => simpa [hminted] using hold
          | some s => exact absurd htokenState (hinv.minted_state tk (by simp [hminted])).2.1
        simp only [Function.update_self, Option.map_some, Option.getD_some, if_true] at hsum ⊢
        omega
      · rw [Function.update_of_ne (Ne.symm hT), ← hold]
        rw [if_neg hT] at hsum
        omega
  · -- a minted token's account is kept, and a newly minted one holds the token
    rcases Ghost.minted_record g (call.map Prod.fst) w.state command with ⟨-, hrecord⟩ |
      ⟨tokenInfo, tokenKey, rfl, hkey, hrecord⟩
    · rw [hrecord] at hT
      obtain ⟨hown, hfree, hacc⟩ := hinv.minted_state T hT
      refine ⟨(howner T).trans hown, ?_, ?_⟩
      · rw [hact.state_eq hfree hacc]
        exact hfree
      · rw [hact.state_eq hfree hacc]
        exact hacc
    · by_cases hTk : T = tokenKey
      · subst hTk
        obtain ⟨tk, dk, dest, token, hkeys, htd, htokenState, -, -, -, hnotAccount, hnotUnallocated,
          hafter⟩ := hact
        rw [hkeys] at hkey
        simp only [List.getElem?_cons_zero, Option.some.injEq] at hkey
        subst hkey
        have hstate : (w.writeBack info').state tk = token := by
          rw [hafter, Function.update_self]
        refine ⟨(howner tk).trans (inputState_of_unallocated htokenState).1, ?_, ?_⟩
        · rw [hstate]
          exact hnotUnallocated
        · rw [hstate]
          exact hnotAccount
      · rw [hrecord, Function.update_of_ne hTk] at hT
        obtain ⟨hown, hfree, hacc⟩ := hinv.minted_state T hT
        refine ⟨(howner T).trans hown, ?_, ?_⟩
        · rw [hact.state_eq hfree hacc]
          exact hfree
        · rw [hact.state_eq hfree hacc]
          exact hacc

/-- Another program's change keeps the invariant. -/
theorem external (hinv : Inv w g) {key : Pubkey} {a : Account} (hext : External (w.account key) a) :
    Inv (w.write key a) g := by
  have hsupply := fun T => TokenWorld.supply_write w T key a
  by_cases hown : (w.account key).owner = TOKEN_PROGRAM_ID
  · -- an account of the token program: owner and state stay
    obtain ⟨hown', hsame⟩ := External.of_owner hext hown
    have hstate : (w.write key a).state = w.state := by
      rw [TokenWorld.state_write, hsame]
      exact Function.update_eq_self key w.state
    have howner : ∀ T, ((w.write key a).account T).owner = (w.account T).owner := by
      intro T
      rw [TokenWorld.account_write]
      by_cases hT : T = key
      · subst hT
        rw [Function.update_self, hown', hown]
      · rw [Function.update_of_ne hT]
    refine ⟨fun T => ?_, fun T hT => ?_, ?_, ?_⟩
    · have := hsupply T
      rw [show readState a = w.state key from hsame] at this
      rw [← hinv.supply_eq T]
      omega
    · rw [howner, hstate]
      exact hinv.minted_state T hT
    · rw [hstate]
      exact hinv.sourcesHeld
    · rw [hstate]
      exact hinv.movedExact
  · -- an account of another program: nothing before, and nothing or unallocated after
    obtain ⟨hold, hnew⟩ := External.of_owner_ne hext hown
    have hold' : ∀ x, w.state key ≠ .account x := fun x h => by
      rw [TokenWorld.state, hold] at h
      cases h
    have hnew' : ∀ x, readState a ≠ .account x := fun x h => by
      rcases hnew with hnew | hnew <;> rw [hnew] at h <;> cases h
    refine ⟨fun T => ?_, fun T hT => ?_, ?_, ?_⟩
    · have := hsupply T
      rw [holding_of_not_account T hold', holding_of_not_account T hnew'] at this
      rw [← hinv.supply_eq T]
      omega
    · -- a minted token's account is the token program's, so not this one
      obtain ⟨hTown, hfree, hacc⟩ := hinv.minted_state T hT
      have hTkey : T ≠ key := by
        rintro rfl
        exact hown hTown
      rw [TokenWorld.state_write, Function.update_of_ne hTkey, TokenWorld.account_write,
        Function.update_of_ne hTkey]
      exact ⟨hTown, hfree, hacc⟩
    · rw [TokenWorld.state_write]
      exact hinv.sourcesHeld.update hold' hnew'
    · rw [TokenWorld.state_write]
      exact hinv.movedExact.update hold' hnew'

end Inv

/-- Every run keeps the invariant. -/
theorem TokenRun.inv {w : TokenWorld} {g : Ghost} (hrun : TokenRun w g) : Inv w g := by
  induction hrun with
  | genesis hw => exact Inv.genesis hw
  | call call input command info' _ hcall hcommand h ih => exact ih.call hcall hcommand h
  | external key account _ hext ih => exact ih.external hext

/-- Over every run of the token program: the token accounts of a minted token that are not
delegates hold its supply; the amount of such an account falls only in a transfer from it signed
by its owner, or in a transfer through a delegate of it signed by the delegate's owner; and what
was moved through a delegate since its last `Approve` is at most what that `Approve` granted. -/
theorem token_supply_conservation {w : TokenWorld} {g : Ghost} (hrun : TokenRun w g) :
    (∀ T s, g.minted T = some s → w.supply T = s.toNat) ∧
    (∀ (call : List (Pubkey × Bool)) (input : List UInt8) (info' : List KeyedAccount)
        (key : Pubkey) (x x' : TokenAccountInfo),
      (call.map Prod.fst).Nodup → process TOKEN_PROGRAM_ID (w.keyed call) input = .ok info' →
      w.state key = .account x → x.delegate = none →
      (w.writeBack info').state key = .account x' → x'.amount < x.amount →
      ∃ amount, deserialize TokenInstruction.deserialize input = some (.transfer amount) ∧
        ((call[0]? = some (x.owner, true) ∧ (call.map Prod.fst)[1]? = some key) ∨
          ∃ delegateKey d delegateInfo, (call.map Prod.fst)[1]? = some delegateKey ∧
            w.state delegateKey = .account d ∧ d.delegate = some delegateInfo ∧
            delegateInfo.source = key ∧ call[0]? = some (d.owner, true))) ∧
    (∀ D x delegateInfo, w.state D = .account x → x.delegate = some delegateInfo →
      g.moved D ≤ delegateInfo.originalAmount.toNat) := by
  have hinv := hrun.inv
  refine ⟨fun T s hs => ?_, fun call input info' key x x' hcall h hk hx hk' hlt => ?_,
    fun D x d hD hd => ?_⟩
  · simpa [hs] using hinv.supply_eq T
  · obtain ⟨command, hcommand, ⟨signer, hsigner⟩, -, hact⟩ := act_of_process hcall h
    obtain ⟨amount, rfl, hcases⟩ :=
      hact.amount_lt hinv.fit hinv.fresh hinv.sourcesHeld hk hx hk' hlt
    -- the first key is the signer's, and it signed
    have hfirst : ∀ o, (call.map Prod.fst)[0]? = some o → call[0]? = some (o, true) := by
      intro o ho
      simp only [List.getElem?_map, hsigner, Option.map_some, Option.some.injEq] at ho
      rw [← ho]
      exact hsigner
    refine ⟨amount, hcommand, ?_⟩
    rcases hcases with ⟨hkey, howner⟩ | ⟨D, d, di, hD, hDstate, hdi, hsource, howner⟩
    · exact Or.inl ⟨hfirst _ howner, hkey⟩
    · exact Or.inr ⟨D, d, di, hD, hDstate, hdi, hsource, hfirst _ howner⟩
  · have := hinv.movedExact.1 D x d hD hd
    omega

/-- A token's key, for the run below. -/
def mintKey : Pubkey := ⟨Vector.replicate 32 7⟩

/-- A token account's key, for the run below. -/
def holderKey : Pubkey := ⟨Vector.replicate 32 8⟩

/-- The token account's owner, for the run below. -/
def ownerKey : Pubkey := ⟨Vector.replicate 32 9⟩

/-- A run that mints `1000` of a token: the system program hands two zeroed accounts to the token
program, the first becomes a token account of the token, and a `NewToken` signed by the token's
key gives it the supply. -/
theorem token_supply_conservation_mint :
    ∃ w g, TokenRun w g ∧ g.minted mintKey = some 1000 ∧ w.supply mintKey = 1000 := by
  have r₀ : TokenRun ⟨[], List.nodup_nil⟩ Ghost.initial := TokenRun.genesis fun key info => by
    simp [TokenWorld.state, TokenWorld.account, AssocMap.get?, readState_default]
  have r₁ := TokenRun.external mintKey ⟨1, 0, List.replicate 26 0, TOKEN_PROGRAM_ID, false⟩ r₀
    (Or.inr ⟨by decide, Or.inr (by simp)⟩)
  have r₂ := TokenRun.external holderKey ⟨1, 0, List.replicate 74 0, TOKEN_PROGRAM_ID, false⟩ r₁
    (Or.inr ⟨by decide, Or.inr (by simp)⟩)
  have r₃ := TokenRun.call [(holderKey, true), (ownerKey, false), (mintKey, false)]
    TokenInstruction.newTokenAccount.serialize .newTokenAccount
    [⟨holderKey, true, ⟨1, 0, 2 :: (List.replicate 32 7 ++ List.replicate 32 9 ++
        List.replicate 9 0), TOKEN_PROGRAM_ID, false⟩⟩,
      ⟨ownerKey, false, default⟩,
      ⟨mintKey, false, ⟨1, 0, List.replicate 26 0, TOKEN_PROGRAM_ID, false⟩⟩]
    r₂ (by decide) (by decide) (by decide)
  have r₄ := TokenRun.call [(mintKey, true), (holderKey, false)]
    (TokenInstruction.newToken ⟨1000, 0, [], []⟩).serialize (.newToken ⟨1000, 0, [], []⟩)
    [⟨mintKey, true, ⟨1, 0, 1 :: (encodeU64 1000 ++ 0 :: List.replicate 16 0), TOKEN_PROGRAM_ID,
        false⟩⟩,
      ⟨holderKey, false, ⟨1, 0, 2 :: (List.replicate 32 7 ++ List.replicate 32 9 ++
        encodeU64 1000 ++ [0]), TOKEN_PROGRAM_ID, false⟩⟩]
    r₃ (by decide) (by decide) (by decide)
  refine ⟨_, _, r₄, ?_, (token_supply_conservation r₄).1 mintKey 1000 ?_⟩
  all_goals simp [Ghost.record]

end Token

end Morgan
