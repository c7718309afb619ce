import Morgan.Controllers.Token

/-!
# Token supply

A token account's state is written over the front of its data.  A state of the shape the account
already holds fits, and reads back as written (`deserialize_serialize_account`); a state written
over an unallocated account may be cut, and then reads as nothing but itself
(`eq_of_deserialize_writeTruncated`).
-/

namespace Morgan

namespace Token

open Rust Bincode

/-! ## The encoding of a token account -/

theorem readsEncoding_pubkey : ReadsEncoding Pubkey.deserialize fun key => key.bytes.toList :=
  (ReadsEncoding.array 32).map Pubkey.mk Pubkey.bytes fun _ => rfl

theorem readsEncoding_delegateInfo :
    ReadsEncoding TokenAccountDelegateInfo.deserialize TokenAccountDelegateInfo.serialize := by
  intro bs info rest h
  unfold TokenAccountDelegateInfo.deserialize at h
  obtain ⟨source, mid, rfl, hsource⟩ := readsEncoding_pubkey.run_bind h
  obtain ⟨originalAmount, mid', rfl, hamount⟩ := ReadsEncoding.u64.run_bind hsource
  cases hamount
  simp [TokenAccountDelegateInfo.serialize]

theorem readsEncoding_accountInfo :
    ReadsEncoding TokenAccountInfo.deserialize TokenAccountInfo.serialize := by
  intro bs info rest h
  unfold TokenAccountInfo.deserialize at h
  obtain ⟨token, mid₁, rfl, htoken⟩ := readsEncoding_pubkey.run_bind h
  obtain ⟨owner, mid₂, rfl, howner⟩ := readsEncoding_pubkey.run_bind htoken
  obtain ⟨amount, mid₃, rfl, hamount⟩ := ReadsEncoding.u64.run_bind howner
  obtain ⟨delegate, mid₄, rfl, hdelegate⟩ :=
    (ReadsEncoding.option readsEncoding_delegateInfo).run_bind hamount
  cases hdelegate
  simp [TokenAccountInfo.serialize]

theorem readsBack_delegateInfo :
    ReadsBack TokenAccountDelegateInfo.deserialize fun info => some info.serialize := by
  intro info bytes h rest
  cases h
  simp only [TokenAccountDelegateInfo.serialize, List.append_assoc,
    TokenAccountDelegateInfo.deserialize]
  rw [readsBack_pubkey.run_bind rfl, ReadsBack.u64.run_bind rfl]
  rfl

theorem readsBack_accountInfo :
    ReadsBack TokenAccountInfo.deserialize fun info => some info.serialize := by
  intro info bytes h rest
  cases h
  simp only [TokenAccountInfo.serialize, List.append_assoc, TokenAccountInfo.deserialize]
  rw [readsBack_pubkey.run_bind rfl, readsBack_pubkey.run_bind rfl, ReadsBack.u64.run_bind rfl,
    (ReadsBack.option readsBack_delegateInfo).run_bind rfl]
  rfl

theorem length_serialize_accountInfo (info : TokenAccountInfo) :
    info.serialize.length = 73 + if info.delegate.isSome then 40 else 0 := by
  cases h : info.delegate <;>
    simp [TokenAccountInfo.serialize, h, encodeOption, TokenAccountDelegateInfo.serialize, encodeU64]

/-- The data of a token account: the tag, the encoding, then bytes the decoding leaves. -/
theorem eq_of_deserialize_account {data : List UInt8} {info : TokenAccountInfo}
    (h : TokenState.deserialize data = .ok (.account info)) :
    ∃ rest, data = 2 :: info.serialize ++ rest := by
  unfold TokenState.deserialize at h
  split at h
  · cases h
  · split at h <;> cases h
  · rename_i rest
    split at h
    · rename_i info' hdecode
      cases h
      simp only [Bincode.deserialize, Option.map_eq_some_iff] at hdecode
      obtain ⟨⟨info'', rest'⟩, hrun, rfl⟩ := hdecode
      exact ⟨rest', by rw [readsEncoding_accountInfo rest info'' rest' hrun]; rfl⟩
    · cases h
  · cases h

theorem deserialize_account_append (info : TokenAccountInfo) (rest : List UInt8) :
    TokenState.deserialize (2 :: info.serialize ++ rest) = .ok (.account info) := by
  have hrun := readsBack_accountInfo info _ rfl rest
  rw [List.cons_append, TokenState.deserialize_two_cons]
  simp [Bincode.deserialize, hrun]

/-- A tag of `1` reads as a token or not at all. -/
theorem eq_token_of_deserialize_one {rest : List UInt8} {s : TokenState}
    (h : TokenState.deserialize (1 :: rest) = .ok s) : ∃ info, s = .token info := by
  rw [TokenState.deserialize_one_cons] at h
  cases hinfo : Bincode.deserialize TokenInfo.deserialize rest with
  | none => rw [hinfo] at h; cases h
  | some info => rw [hinfo] at h; cases h; exact ⟨info, rfl⟩

/-- A tag of `2` reads as a token account or not at all. -/
theorem eq_account_of_deserialize_two {rest : List UInt8} {s : TokenState}
    (h : TokenState.deserialize (2 :: rest) = .ok s) : ∃ info, s = .account info := by
  rw [TokenState.deserialize_two_cons] at h
  cases hinfo : Bincode.deserialize TokenAccountInfo.deserialize rest with
  | none => rw [hinfo] at h; cases h
  | some info => rw [hinfo] at h; cases h; exact ⟨info, rfl⟩

/-- A state of the shape a token account holds, written over its data, fits and reads back. -/
theorem deserialize_serialize_account {data : List UInt8} {info info' : TokenAccountInfo}
    (h : TokenState.deserialize data = .ok (.account info))
    (hshape : info'.delegate.isSome = info.delegate.isSome) :
    ∃ data', (TokenState.account info').serialize data = .ok data' ∧
      TokenState.deserialize data' = .ok (.account info') := by
  obtain ⟨rest, rfl⟩ := eq_of_deserialize_account h
  have hlen : info'.serialize.length = info.serialize.length := by
    rw [length_serialize_accountInfo, length_serialize_accountInfo, hshape]
  refine ⟨2 :: info'.serialize ++ rest, ?_, deserialize_account_append info' rest⟩
  -- the new encoding is as long as the old one, which the data held
  have hfit : (info'.serialize ++ (info.serialize ++ rest).drop info'.serialize.length).take
      (info.serialize ++ rest).length = info'.serialize ++ rest := by
    rw [hlen, List.drop_left, List.take_of_length_le (by simp only [List.length_append, hlen]; omega)]
  simp only [TokenState.serialize, List.cons_append, writeTruncated, hfit]

/-- The encoding of a token account: its first 72 bytes, then the delegate's tag and fields. -/
theorem serialize_accountInfo_eq (info : TokenAccountInfo) :
    info.serialize = (info.token.bytes.toList ++ info.owner.bytes.toList ++ encodeU64 info.amount) ++
      encodeOption TokenAccountDelegateInfo.serialize info.delegate := rfl

theorem length_accountInfo_fixed (info : TokenAccountInfo) :
    (info.token.bytes.toList ++ info.owner.bytes.toList ++ encodeU64 info.amount).length = 72 := by
  simp [encodeU64]

/-- A token account written over data too short for it cannot read as another: a strict prefix of
an encoding never decodes, since the two lengths of an encoding differ in the delegate's tag. -/
theorem eq_of_deserialize_writeTruncated {info x : TokenAccountInfo} {rest : List UInt8}
    (h : TokenState.deserialize (2 :: writeTruncated info.serialize rest) = .ok (.account x)) :
    x = info := by
  by_cases hfit : info.serialize.length ≤ rest.length
  · have hwrite : writeTruncated info.serialize rest =
        info.serialize ++ rest.drop info.serialize.length := by
      unfold writeTruncated
      rw [List.take_of_length_le (by simp only [List.length_append, List.length_drop]; omega)]
    rw [hwrite, ← List.cons_append, deserialize_account_append] at h
    cases h
    rfl
  · exfalso
    have hwrite : writeTruncated info.serialize rest = info.serialize.take rest.length := by
      unfold writeTruncated
      rw [List.take_append_of_le_length (by omega)]
    rw [hwrite] at h
    obtain ⟨r, hr⟩ := eq_of_deserialize_account h
    have hprefix : x.serialize ++ r = info.serialize.take rest.length := (List.cons.inj hr).2.symm
    -- the decoded encoding is shorter than the written one: no delegate against a delegate
    have hshort : x.serialize.length ≤ rest.length := by
      have := congrArg List.length hprefix
      simp only [List.length_append, List.length_take] at this
      omega
    have hx := length_serialize_accountInfo x
    have hi := length_serialize_accountInfo info
    cases hxd : x.delegate with
    | some _ =>
      simp [hxd] at hx
      cases hid : info.delegate <;> simp [hid] at hi <;> omega
    | none =>
      cases hid : info.delegate with
      | none => simp [hid] at hi; omega
      | some d =>
        simp [hxd] at hx
        simp [hid] at hi
        -- the byte after the first 72: `0` in the decoded encoding, `1` in the written one
        have hleft : (x.serialize ++ r).take 73 =
            (x.token.bytes.toList ++ x.owner.bytes.toList ++ encodeU64 x.amount) ++ [0] := by
          rw [List.take_left' (by simp [hx]), serialize_accountInfo_eq x, hxd]
          rfl
        have hright : (info.serialize.take rest.length).take 73 =
            (info.token.bytes.toList ++ info.owner.bytes.toList ++ encodeU64 info.amount) ++ [1] := by
          rw [List.take_take, Nat.min_eq_left (by omega), serialize_accountInfo_eq info,
            hid, List.take_append, List.take_of_length_le (by rw [length_accountInfo_fixed]; omega),
            length_accountInfo_fixed]
          rfl
        have htags := List.append_inj_right' (hleft.symm.trans ((congrArg (List.take 73) hprefix).trans
          hright)) rfl
        simp at htags

/-! ## Reading the accounts back -/

/-- A keyed account with its data dropped: what a write leaves as it was. -/
def dataless (k : KeyedAccount) : KeyedAccount := { k with account := { k.account with data := [] } }

/-- A keyed account with new data. -/
def withData (k : KeyedAccount) (data : List UInt8) : KeyedAccount :=
  { k with account := { k.account with data } }

theorem dataless_withData (k : KeyedAccount) (data : List UInt8) :
    dataless (withData k data) = dataless k := rfl

/-- What `inputState` reads: the state the data of an account of the program decodes to, or
`Invalid`. -/
theorem inputState_cases (pid : Pubkey) (k : KeyedAccount) :
    (k.account.owner = pid ∧ TokenState.deserialize k.account.data = .ok (inputState pid k)) ∨
      inputState pid k = .invalid := by
  unfold inputState
  split_ifs with howner
  · cases hread : TokenState.deserialize k.account.data with
    | ok state => exact .inl ⟨howner, rfl⟩
    | error e => exact .inr rfl
  · exact .inr rfl

theorem inputState_of_owner_ne {pid : Pubkey} {k : KeyedAccount} (h : k.account.owner ≠ pid) :
    inputState pid k = .invalid := by
  unfold inputState
  rw [if_neg h]

theorem inputState_of_deserialize {pid : Pubkey} {k : KeyedAccount} {s : TokenState}
    (howner : k.account.owner = pid) (h : TokenState.deserialize k.account.data = .ok s) :
    inputState pid k = s := by
  unfold inputState
  rw [if_pos howner, h]

/-- A state other than `Invalid` is read from an account of the program whose data decodes to
it. -/
theorem inputState_of_ne_invalid {pid : Pubkey} {k : KeyedAccount}
    (h : inputState pid k ≠ .invalid) :
    k.account.owner = pid ∧ TokenState.deserialize k.account.data = .ok (inputState pid k) :=
  (inputState_cases pid k).resolve_right h

theorem inputState_of_account {pid : Pubkey} {k : KeyedAccount} {info : TokenAccountInfo}
    (h : inputState pid k = .account info) :
    k.account.owner = pid ∧ TokenState.deserialize k.account.data = .ok (.account info) := by
  rw [← h]
  exact inputState_of_ne_invalid (by simp [h])

theorem inputState_of_unallocated {pid : Pubkey} {k : KeyedAccount}
    (h : inputState pid k = .unallocated) :
    k.account.owner = pid ∧ TokenState.deserialize k.account.data = .ok .unallocated := by
  rw [← h]
  exact inputState_of_ne_invalid (by simp [h])

/-- A token account rewritten with a state of its shape reads as the new state. -/
theorem inputState_withData_account {pid : Pubkey} {k : KeyedAccount} {info info' : TokenAccountInfo}
    {data : List UInt8} (hold : inputState pid k = .account info)
    (hshape : info'.delegate.isSome = info.delegate.isSome)
    (h : (TokenState.account info').serialize k.account.data = .ok data) :
    inputState pid (withData k data) = .account info' := by
  obtain ⟨howner, hdecode⟩ := inputState_of_account hold
  obtain ⟨data', hdata', hread⟩ := deserialize_serialize_account hdecode hshape
  rw [h] at hdata'
  cases hdata'
  exact inputState_of_deserialize howner hread

/-- An account given a token account reads as it, or, cut short, as nothing, whatever it held
before. -/
theorem inputState_withData_unallocated {pid : Pubkey} {k : KeyedAccount} {info' : TokenAccountInfo}
    {data : List UInt8} (h : (TokenState.account info').serialize k.account.data = .ok data) :
    inputState pid (withData k data) = .account info' ∨ inputState pid (withData k data) = .invalid := by
  cases hdata : k.account.data with
  | nil => rw [hdata, TokenState.serialize_nil] at h; cases h
  | cons b rest =>
    rw [hdata, TokenState.serialize_account_cons] at h
    cases h
    rcases inputState_cases pid (withData k (2 :: writeTruncated info'.serialize rest)) with
      ⟨-, hread⟩ | hinvalid
    · obtain ⟨x, hx⟩ := eq_account_of_deserialize_two hread
      rw [hx] at hread ⊢
      exact .inl (by rw [eq_of_deserialize_writeTruncated hread])
    · exact .inr hinvalid

/-- An account given a token reads as a token, or as nothing: never as a token account or as
unallocated. -/
theorem inputState_withData_token {pid : Pubkey} {k : KeyedAccount} {tokenInfo : TokenInfo}
    {data : List UInt8} (h : (TokenState.token tokenInfo).serialize k.account.data = .ok data) :
    (∀ info, inputState pid (withData k data) ≠ .account info) ∧
      inputState pid (withData k data) ≠ .unallocated := by
  cases hdata : k.account.data with
  | nil => rw [hdata, TokenState.serialize_nil] at h; cases h
  | cons b rest =>
    rw [hdata, TokenState.serialize_token_cons] at h
    cases h
    rcases inputState_cases pid (withData k (1 :: writeTruncated tokenInfo.serialize rest)) with
      ⟨-, hread⟩ | hinvalid
    · obtain ⟨x, hx⟩ := eq_token_of_deserialize_one hread
      simp [hx]
    · simp [hinvalid]

/-! ## What each instruction writes -/

section Reads

variable {ε α : Type} {e : ε} {r : α}

/-- The instructions go on only with a token account at the index they read. -/
theorem account_match_eq_ok {s : Option TokenState} {k : TokenAccountInfo → Outcome ε α}
    (h : (match s with
      | some (TokenState.account a) => k a
      | _ => .err e) = .ok r) :
    ∃ a, s = some (.account a) ∧ k a = .ok r := by
  split at h
  · exact ⟨_, rfl, h⟩
  · cases h

/-- The same with two token accounts read at once. -/
theorem accounts_match_eq_ok {s t : Option TokenState}
    {k : TokenAccountInfo → TokenAccountInfo → Outcome ε α}
    (h : (match s, t with
      | some (TokenState.account a), some (TokenState.account b) => k a b
      | _, _ => .err e) = .ok r) :
    ∃ a b, s = some (.account a) ∧ t = some (.account b) ∧ k a b = .ok r := by
  split at h
  · exact ⟨_, _, rfl, rfl, h⟩
  · cases h

theorem keyAt_eq_ok {info : List KeyedAccount} {i : Nat} {key : Pubkey}
    (h : keyAt info i = .ok key) : ∃ k, info[i]? = some k ∧ k.unsignedKey = key := by
  unfold keyAt at h
  rcases hk : info[i]? with _ | k
  · rw [hk] at h
    cases h
  · rw [hk] at h
    cases h
    exact ⟨k, rfl, rfl⟩

theorem signerKey_eq_ok {info : List KeyedAccount} {key : Pubkey}
    (h : signerKey info = .ok key) : ∃ k, info[0]? = some k ∧ k.signerKey = some key := by
  unfold signerKey at h
  rcases hk : info[0]? with _ | k
  · rw [hk] at h
    cases h
  · rw [hk] at h
    dsimp only at h
    rcases hkey : k.signerKey with _ | key'
    · rw [hkey] at h
      cases h
    · rw [hkey] at h
      cases h
      exact ⟨k, rfl, hkey⟩

end Reads

theorem processNewtoken_eq_ok {info : List KeyedAccount} {tokenInfo : TokenInfo}
    {inputs : List TokenState} {outputs : List (Nat × TokenState)}
    (h : processNewtoken info tokenInfo inputs = .ok outputs) :
    ∃ dest, inputs.length = 2 ∧ inputs[1]? = some (.account dest) ∧
      signerKey info = .ok dest.token ∧ dest.delegate = none ∧ inputs[0]? = some .unallocated ∧
      outputs = [(1, .account { dest with amount := tokenInfo.supply }), (0, .token tokenInfo)] := by
  unfold processNewtoken at h
  split at h
  · cases h
  rename_i hlen
  obtain ⟨dest, hdest, h⟩ := account_match_eq_ok h
  obtain ⟨signer, hsigner, h⟩ := Outcome.bind_eq_ok.1 h
  split at h
  · cases h
  rename_i htoken
  split at h
  · cases h
  rename_i hdelegate
  split at h
  · cases h
  rename_i hfirst
  cases h
  refine ⟨dest, not_not.1 hlen, hdest, ?_, Option.not_isSome_iff_eq_none.1 hdelegate,
    not_not.1 hfirst, rfl⟩
  rw [hsigner, not_not.1 htoken]

theorem processNewaccount_eq_ok {info : List KeyedAccount} {inputs : List TokenState}
    {outputs : List (Nat × TokenState)} (h : processNewaccount info inputs = .ok outputs) :
    ∃ token owner delegate, 3 ≤ inputs.length ∧ inputs[0]? = some .unallocated ∧
      (delegate = none ∨ ∃ source, delegate = some ⟨source, 0⟩) ∧
      outputs = [(0, .account ⟨token, owner, 0, delegate⟩)] := by
  unfold processNewaccount at h
  split at h
  · cases h
  rename_i hlen
  split at h
  · cases h
  rename_i hfirst
  obtain ⟨token, -, h⟩ := Outcome.bind_eq_ok.1 h
  obtain ⟨owner, -, h⟩ := Outcome.bind_eq_ok.1 h
  dsimp only at h
  split at h
  · -- a delegate, made with no allowance
    obtain ⟨delegate, hdelegate, h⟩ := Outcome.bind_eq_ok.1 h
    cases h
    refine ⟨token, owner, delegate, by omega, not_not.1 hfirst, ?_, rfl⟩
    cases hsource : keyAt info 3 with
    | ok source =>
      rw [hsource] at hdelegate
      cases hdelegate
      exact Or.inr ⟨source, rfl⟩
    | err e => rw [hsource] at hdelegate; cases hdelegate
    | panic => rw [hsource] at hdelegate; cases hdelegate
  · cases h
    exact ⟨token, owner, none, by omega, not_not.1 hfirst, Or.inl rfl, rfl⟩

theorem transferFromSource_eq_ok {info : List KeyedAccount} {amount : UInt64}
    {inputs : List TokenState} {delegateAccount : TokenAccountInfo}
    {delegateInfo : TokenAccountDelegateInfo} {outputs : List (Nat × TokenState)}
    (h : transferFromSource info amount inputs delegateAccount delegateInfo = .ok outputs) :
    ∃ source, inputs.length = 4 ∧ inputs[3]? = some (.account source) ∧
      source.token = delegateAccount.token ∧ keyAt info 3 = .ok delegateInfo.source ∧
      amount ≤ source.amount ∧
      outputs = [(3, .account { source with amount := source.amount - amount })] := by
  unfold transferFromSource at h
  split at h
  · cases h
  rename_i hlen
  obtain ⟨source, hsource, h⟩ := account_match_eq_ok h
  split at h
  · cases h
  rename_i htoken
  obtain ⟨sourceKey, hkey, h⟩ := Outcome.bind_eq_ok.1 h
  split at h
  · cases h
  rename_i hkeyne
  split at h
  · cases h
  rename_i hfunds
  cases h
  refine ⟨source, not_not.1 hlen, hsource, not_not.1 htoken, ?_, UInt64.not_lt.1 hfunds, rfl⟩
  rw [hkey, not_not.1 hkeyne]

theorem processTransfer_eq_ok {info : List KeyedAccount} {amount : UInt64}
    {inputs : List TokenState} {outputs : List (Nat × TokenState)}
    (h : processTransfer info amount inputs = .ok outputs) :
    ∃ source dest fromSource, 3 ≤ inputs.length ∧ inputs[1]? = some (.account source) ∧
      inputs[2]? = some (.account dest) ∧ source.token = dest.token ∧ dest.delegate = none ∧
      signerKey info = .ok source.owner ∧ amount ≤ source.amount ∧
      ((source.delegate = none ∧ fromSource = []) ∨
        ∃ delegateInfo, source.delegate = some delegateInfo ∧
          transferFromSource info amount inputs source delegateInfo = .ok fromSource) ∧
      outputs = (1, .account { source with amount := source.amount - amount }) ::
        fromSource ++ [(2, .account { dest with amount := dest.amount + amount })] := by
  unfold processTransfer at h
  split at h
  · cases h
  rename_i hlen
  obtain ⟨source, dest, hsource, hdest, h⟩ := accounts_match_eq_ok h
  split at h
  · cases h
  rename_i htoken
  split at h
  · cases h
  rename_i hdelegate
  obtain ⟨signer, hsigner, h⟩ := Outcome.bind_eq_ok.1 h
  split at h
  · cases h
  rename_i howner
  split at h
  · cases h
  rename_i hfunds
  have hsigned : signerKey info = .ok source.owner := by rw [hsigner, not_not.1 howner]
  dsimp only at h
  -- the source's own delegate decides whether a second account pays
  split at h
  · rename_i delegateInfo hsd
    obtain ⟨fromSource, hfrom, h⟩ := Outcome.bind_eq_ok.1 h
    cases h
    exact ⟨source, dest, fromSource, by omega, hsource, hdest, not_not.1 htoken,
      Option.not_isSome_iff_eq_none.1 hdelegate, hsigned, UInt64.not_lt.1 hfunds,
      Or.inr ⟨delegateInfo, hsd, hfrom⟩, rfl⟩
  · rename_i hsd
    cases h
    exact ⟨source, dest, [], by omega, hsource, hdest, not_not.1 htoken,
      Option.not_isSome_iff_eq_none.1 hdelegate, hsigned, UInt64.not_lt.1 hfunds,
      Or.inl ⟨hsd, rfl⟩, rfl⟩

theorem processApprove_eq_ok {info : List KeyedAccount} {amount : UInt64}
    {inputs : List TokenState} {outputs : List (Nat × TokenState)}
    (h : processApprove info amount inputs = .ok outputs) :
    ∃ source delegateAccount delegateInfo, inputs.length = 3 ∧
      inputs[1]? = some (.account source) ∧ inputs[2]? = some (.account delegateAccount) ∧
      source.token = delegateAccount.token ∧ signerKey info = .ok source.owner ∧
      source.delegate = none ∧ delegateAccount.delegate = some delegateInfo ∧
      keyAt info 1 = .ok delegateInfo.source ∧
      outputs = [(2, .account { delegateAccount with
        amount, delegate := some ⟨delegateInfo.source, amount⟩ })] := by
  unfold processApprove at h
  split at h
  · cases h
  rename_i hlen
  obtain ⟨source, delegateAccount, hsource, hdelegateAccount, h⟩ := accounts_match_eq_ok h
  split at h
  · cases h
  rename_i htoken
  obtain ⟨signer, hsigner, h⟩ := Outcome.bind_eq_ok.1 h
  split at h
  · cases h
  rename_i howner
  split at h
  · cases h
  rename_i hsourceDelegate
  split at h
  · cases h
  rename_i delegateInfo hdelegateInfo
  obtain ⟨sourceKey, hkey, h⟩ := Outcome.bind_eq_ok.1 h
  split at h
  · cases h
  rename_i hkeyne
  cases h
  refine ⟨source, delegateAccount, delegateInfo, not_not.1 hlen, hsource, hdelegateAccount,
    not_not.1 htoken, ?_, Option.not_isSome_iff_eq_none.1 hsourceDelegate, hdelegateInfo, ?_, rfl⟩
  · rw [hsigner, not_not.1 howner]
  · rw [hkey, not_not.1 hkeyne]

theorem processSetowner_eq_ok {info : List KeyedAccount} {inputs : List TokenState}
    {outputs : List (Nat × TokenState)} (h : processSetowner info inputs = .ok outputs) :
    ∃ source owner, 3 ≤ inputs.length ∧ inputs[1]? = some (.account source) ∧
      signerKey info = .ok source.owner ∧ keyAt info 2 = .ok owner ∧
      outputs = [(1, .account { source with owner })] := by
  unfold processSetowner at h
  split at h
  · cases h
  rename_i hlen
  obtain ⟨source, hsource, h⟩ := account_match_eq_ok h
  obtain ⟨signer, hsigner, h⟩ := Outcome.bind_eq_ok.1 h
  split at h
  · cases h
  rename_i howner
  obtain ⟨owner, howner', h⟩ := Outcome.bind_eq_ok.1 h
  cases h
  refine ⟨source, owner, by omega, hsource, ?_, howner', rfl⟩
  rw [hsigner, not_not.1 howner]

/-! ## Writing the states -/

section Writes

variable {pid : Pubkey}

theorem writeOutput_eq_ok {info info' : List KeyedAccount} {i : Nat} {s : TokenState}
    (h : writeOutput info (i, s) = .ok info') :
    ∃ k data, info[i]? = some k ∧ s.serialize k.account.data = .ok data ∧
      info' = info.set i (withData k data) := by
  unfold writeOutput at h
  split at h
  · rename_i k hk
    split at h
    · rename_i data hdata
      cases h
      exact ⟨k, data, hk, hdata, rfl⟩
    · cases h
  · cases h

theorem foldlM_writeOutput_cons {info info' : List KeyedAccount} {o : Nat × TokenState}
    {os : List (Nat × TokenState)} (h : (o :: os).foldlM writeOutput info = .ok info') :
    ∃ mid, writeOutput info o = .ok mid ∧ os.foldlM writeOutput mid = .ok info' := by
  rw [List.foldlM_cons] at h
  exact Outcome.bind_eq_ok.1 h

/-- A write changes one account's data: the keys, signers, difs and owners stay. -/
theorem map_dataless_set {info : List KeyedAccount} {i : Nat} {k : KeyedAccount}
    (hk : info[i]? = some k) (data : List UInt8) :
    (info.set i (withData k data)).map dataless = info.map dataless := by
  obtain ⟨hi, rfl⟩ := List.getElem?_eq_some_iff.1 hk
  have hlen : i < (info.map dataless).length := by simpa using hi
  have hget : (info.map dataless)[i] = dataless info[i] := List.getElem_map ..
  rw [List.map_set, dataless_withData, ← hget, List.set_getElem_self hlen]

/-- Writing a token account of the shape an account holds. -/
theorem writeOutput_account {info info' : List KeyedAccount} {i : Nat} {a a' : TokenAccountInfo}
    (h : writeOutput info (i, .account a') = .ok info')
    (hold : (info.map (inputState pid))[i]? = some (.account a))
    (hshape : a'.delegate.isSome = a.delegate.isSome) :
    info'.map dataless = info.map dataless ∧
      info'.map (inputState pid) = (info.map (inputState pid)).set i (.account a') := by
  obtain ⟨k, data, hk, hdata, rfl⟩ := writeOutput_eq_ok h
  rw [List.getElem?_map, hk] at hold
  have hread := inputState_withData_account (Option.some.inj hold) hshape hdata
  exact ⟨map_dataless_set hk data, by rw [List.map_set, hread]⟩

/-- Writing a token account over any account, an unallocated one among them: it reads as
written, or as nothing. -/
theorem writeOutput_unallocated {info info' : List KeyedAccount} {i : Nat} {a' : TokenAccountInfo}
    (h : writeOutput info (i, .account a') = .ok info') :
    info'.map dataless = info.map dataless ∧
      ∃ new, (new = .account a' ∨ new = .invalid) ∧
        info'.map (inputState pid) = (info.map (inputState pid)).set i new := by
  obtain ⟨k, data, hk, hdata, rfl⟩ := writeOutput_eq_ok h
  exact ⟨map_dataless_set hk data, _, inputState_withData_unallocated hdata,
    by rw [List.map_set]⟩

/-- Writing a token: the account reads as neither a token account nor unallocated. -/
theorem writeOutput_token {info info' : List KeyedAccount} {i : Nat} {tokenInfo : TokenInfo}
    (h : writeOutput info (i, .token tokenInfo) = .ok info') :
    info'.map dataless = info.map dataless ∧
      ∃ new, (∀ x, new ≠ .account x) ∧ new ≠ .unallocated ∧
        info'.map (inputState pid) = (info.map (inputState pid)).set i new := by
  obtain ⟨k, data, hk, hdata, rfl⟩ := writeOutput_eq_ok h
  obtain ⟨hnotAccount, hnotUnallocated⟩ := @inputState_withData_token pid _ _ _ hdata
  exact ⟨map_dataless_set hk data, _, hnotAccount, hnotUnallocated, by rw [List.map_set]⟩

end Writes

/-! ## What an accepted instruction does -/

/-- What an instruction `process` accepts checked, and what it did to the states the program reads
from its accounts: `states` before and `states'` after.  A state written over an unallocated
account may read as nothing, when the account's data is too short for it. -/
def Effect (info : List KeyedAccount) : TokenInstruction → List TokenState → List TokenState → Prop
  | .newToken tokenInfo, states, states' =>
    ∃ dest token, states.length = 2 ∧ states[1]? = some (.account dest) ∧
      signerKey info = .ok dest.token ∧ dest.delegate = none ∧ states[0]? = some .unallocated ∧
      (∀ x, token ≠ .account x) ∧ token ≠ .unallocated ∧
      states' = (states.set 1 (.account { dest with amount := tokenInfo.supply })).set 0 token
  | .newTokenAccount, states, states' =>
    ∃ new, 3 ≤ states.length ∧ states[0]? = some .unallocated ∧
      (new = .invalid ∨ ∃ token owner delegate, new = .account ⟨token, owner, 0, delegate⟩ ∧
        (delegate = none ∨ ∃ source, delegate = some ⟨source, 0⟩)) ∧
      states' = states.set 0 new
  | .transfer amount, states, states' =>
    ∃ source dest, states[1]? = some (.account source) ∧ states[2]? = some (.account dest) ∧
      source.token = dest.token ∧ dest.delegate = none ∧ signerKey info = .ok source.owner ∧
      amount ≤ source.amount ∧
      ((source.delegate = none ∧
          states' = (states.set 1 (.account { source with amount := source.amount - amount })).set 2
            (.account { dest with amount := dest.amount + amount })) ∨
        ∃ delegateInfo paying, source.delegate = some delegateInfo ∧ states.length = 4 ∧
          states[3]? = some (.account paying) ∧ paying.token = source.token ∧
          keyAt info 3 = .ok delegateInfo.source ∧ amount ≤ paying.amount ∧
          states' = ((states.set 1 (.account { source with amount := source.amount - amount })).set 3
            (.account { paying with amount := paying.amount - amount })).set 2
              (.account { dest with amount := dest.amount + amount }))
  | .approve amount, states, states' =>
    ∃ source delegateAccount delegateInfo, states.length = 3 ∧
      states[1]? = some (.account source) ∧ states[2]? = some (.account delegateAccount) ∧
      source.token = delegateAccount.token ∧ signerKey info = .ok source.owner ∧
      source.delegate = none ∧ delegateAccount.delegate = some delegateInfo ∧
      keyAt info 1 = .ok delegateInfo.source ∧
      states' = states.set 2 (.account { delegateAccount with
        amount, delegate := some ⟨delegateInfo.source, amount⟩ })
  | .setOwner, states, states' =>
    ∃ source owner, 3 ≤ states.length ∧ states[1]? = some (.account source) ∧
      signerKey info = .ok source.owner ∧ keyAt info 2 = .ok owner ∧
      states' = states.set 1 (.account { source with owner })

theorem foldlM_writeOutput_nil {info info' : List KeyedAccount}
    (h : ([] : List (Nat × TokenState)).foldlM writeOutput info = .ok info') : info' = info := by
  cases h
  rfl

/-- The one spec of `process`: an accepted instruction decodes, is signed by its first account,
changes only the data of its accounts, and has its `Effect`. -/
theorem process_eq_ok {pid : Pubkey} {info info' : List KeyedAccount} {input : List UInt8}
    (h : process pid info input = .ok info') :
    ∃ command, Bincode.deserialize TokenInstruction.deserialize input = some command ∧
      (∃ first, info[0]? = some first ∧ first.isSigner = true) ∧
      info'.map dataless = info.map dataless ∧
      Effect info command (info.map (inputState pid)) (info'.map (inputState pid)) := by
  unfold process at h
  split at h
  · cases h
  rename_i command hcommand
  split at h
  · cases h
  rename_i first hfirst
  split at h
  · cases h
  rename_i hsigned
  obtain ⟨outputs, houtputs, hwrite⟩ := Outcome.bind_eq_ok.1 h
  have hsigner : first.isSigner = true := by
    simpa [KeyedAccount.signerKey] using hsigned
  refine ⟨command, hcommand, ⟨first, hfirst, hsigner⟩, ?_⟩
  cases command with
  | newToken tokenInfo =>
    obtain ⟨dest, hlen, hdest, hdestSigner, hdelegate, hzero, rfl⟩ := processNewtoken_eq_ok houtputs
    obtain ⟨mid, h₁, hrest⟩ := foldlM_writeOutput_cons hwrite
    obtain ⟨mid', h₂, hrest⟩ := foldlM_writeOutput_cons hrest
    obtain rfl := foldlM_writeOutput_nil hrest
    obtain ⟨hd₁, hs₁⟩ := writeOutput_account h₁ hdest rfl
    obtain ⟨hd₂, token, hnotAccount, hnotUnallocated, hs₂⟩ := @writeOutput_token pid _ _ _ _ h₂
    exact ⟨hd₂.trans hd₁, dest, token, hlen, hdest, hdestSigner, hdelegate, hzero, hnotAccount,
      hnotUnallocated, by rw [hs₂, hs₁]⟩
  | newTokenAccount =>
    obtain ⟨token, owner, delegate, hlen, hzero, hdelegate, rfl⟩ := processNewaccount_eq_ok houtputs
    obtain ⟨mid, h₁, hrest⟩ := foldlM_writeOutput_cons hwrite
    obtain rfl := foldlM_writeOutput_nil hrest
    obtain ⟨hd₁, new, hnew, hs₁⟩ := writeOutput_unallocated h₁
    refine ⟨hd₁, new, hlen, hzero, ?_, hs₁⟩
    rcases hnew with rfl | rfl
    · exact Or.inr ⟨token, owner, delegate, rfl, hdelegate⟩
    · exact Or.inl rfl
  | transfer amount =>
    obtain ⟨source, dest, fromSource, -, hsource, hdest, htoken, hdelegate, hsigner', hfunds,
      hfrom, rfl⟩ := processTransfer_eq_ok houtputs
    obtain ⟨mid, h₁, hrest⟩ := foldlM_writeOutput_cons hwrite
    obtain ⟨hd₁, hs₁⟩ := writeOutput_account h₁ hsource rfl
    rcases hfrom with ⟨hnone, rfl⟩ | ⟨delegateInfo, hsome, hpaying⟩
    · -- the signer's own account pays
      obtain ⟨mid', h₂, hrest⟩ := foldlM_writeOutput_cons hrest
      obtain rfl := foldlM_writeOutput_nil hrest
      have hdest₁ : (mid.map (inputState pid))[2]? = some (.account dest) := by
        rw [hs₁, List.getElem?_set_ne (by decide)]
        exact hdest
      obtain ⟨hd₂, hs₂⟩ := writeOutput_account h₂ hdest₁ rfl
      exact ⟨hd₂.trans hd₁, source, dest, hsource, hdest, htoken, hdelegate, hsigner', hfunds,
        Or.inl ⟨hnone, by rw [hs₂, hs₁]⟩⟩
    · -- a delegate spends its allowance, and its source pays
      obtain ⟨paying, hlen, hpaying', hpayingToken, hkey, hpayingFunds, rfl⟩ :=
        transferFromSource_eq_ok hpaying
      obtain ⟨mid', h₂, hrest⟩ := foldlM_writeOutput_cons hrest
      obtain ⟨mid'', h₃, hrest⟩ := foldlM_writeOutput_cons hrest
      obtain rfl := foldlM_writeOutput_nil hrest
      have hpaying₁ : (mid.map (inputState pid))[3]? = some (.account paying) := by
        rw [hs₁, List.getElem?_set_ne (by decide)]
        exact hpaying'
      obtain ⟨hd₂, hs₂⟩ := writeOutput_account h₂ hpaying₁ rfl
      have hdest₂ : (mid'.map (inputState pid))[2]? = some (.account dest) := by
        rw [hs₂, List.getElem?_set_ne (by decide), hs₁, List.getElem?_set_ne (by decide)]
        exact hdest
      obtain ⟨hd₃, hs₃⟩ := writeOutput_account h₃ hdest₂ rfl
      exact ⟨hd₃.trans (hd₂.trans hd₁), source, dest, hsource, hdest, htoken, hdelegate, hsigner',
        hfunds, Or.inr ⟨delegateInfo, paying, hsome, by simpa using hlen, hpaying', hpayingToken,
          hkey, hpayingFunds, by rw [hs₃, hs₂, hs₁]⟩⟩
  | approve amount =>
    obtain ⟨source, delegateAccount, delegateInfo, hlen, hsource, hdelegateAccount, htoken,
      hsigner', hsourceDelegate, hdelegateInfo, hkey, rfl⟩ := processApprove_eq_ok houtputs
    obtain ⟨mid, h₁, hrest⟩ := foldlM_writeOutput_cons hwrite
    obtain rfl := foldlM_writeOutput_nil hrest
    obtain ⟨hd₁, hs₁⟩ := writeOutput_account h₁ hdelegateAccount (by simp [hdelegateInfo])
    exact ⟨hd₁, source, delegateAccount, delegateInfo, by simpa using hlen, hsource,
      hdelegateAccount, htoken, hsigner', hsourceDelegate, hdelegateInfo, hkey, hs₁⟩
  | setOwner =>
    obtain ⟨source, owner, hlen, hsource, hsigner', howner, rfl⟩ := processSetowner_eq_ok houtputs
    obtain ⟨mid, h₁, hrest⟩ := foldlM_writeOutput_cons hwrite
    obtain rfl := foldlM_writeOutput_nil hrest
    obtain ⟨hd₁, hs₁⟩ := writeOutput_account h₁ hsource rfl
    exact ⟨hd₁, source, owner, by simpa using hlen, hsource, hsigner', howner, hs₁⟩

end Token

end Morgan
