import Mathlib
import Morgan.Core.ClusterInfo
import Morgan.Lib.Greatest

/-!
# The gossip table converges

`connectionInfoTable.rs` and `pullFromGossip.rs`: values reach a node's table through
`Crds::insert`, pull responses and pull requests, and each insert keeps, for the value's label,
the version that `partial_cmp` puts higher: a later wallclock, or the same wallclock and a greater
value hash.  Read label by label, the table is a register that keeps the greatest value offered
(`Greatest`), with the key `(wallclock, value hash)`:

* `lookup_insert`: one insert offers the value to its label's register, provided every version in
  the table is filed under its label with its value's hash (`Crds.Hashed`, which every delivery
  keeps);
* `offers_deliverAll`: a run of deliveries offers their values in order;
* `crds_merge_converges`: two runs from an empty table that deliver the same values, in any order
  and grouping, leave the same value under every label, the delivered one of greatest key, when
  distinct values have distinct hashes; and no run lowers the key under a label.

A pull request whose filter panics delivers nothing; the runs here are those whose calls return.
-/

namespace Morgan

/-- The bytes of a hash, as numbers. -/
def Hash.digits (h : Hash) : List ℕ := h.bytes.toList.map UInt8.toNat

theorem Hash.eq_of_digits_eq {a b : Hash} (h : a.digits = b.digits) : a = b := by
  have hinj : Function.Injective UInt8.toNat := fun _ _ => UInt8.toNat_inj.1
  have hbytes : a.bytes.toList = b.bytes.toList := List.map_injective_iff.2 hinj h
  cases a
  cases b
  simp only [Hash.mk.injEq]
  exact Vector.toList_inj.1 hbytes

namespace Gossip

/-! ## The order of versions -/

/-- What `partial_cmp` compares within a label: the wallclock, then the value hash. -/
def VersionedCrdsValue.key (v : VersionedCrdsValue) : ℕ ×ₗ List ℕ :=
  toLex (v.value.wallclock.toNat, v.valueHash.digits)

/-- The key of a value, with its hash. -/
def CrdsValue.key (valueHash : CrdsValue → Hash) (v : CrdsValue) : ℕ ×ₗ List ℕ :=
  toLex (v.wallclock.toNat, (valueHash v).digits)

/-- The lexicographic order of byte strings is that of their numbers. -/
theorem bytes_lt_iff (a b : List UInt8) : a < b ↔ a.map UInt8.toNat < b.map UInt8.toNat := by
  induction a generalizing b with
  | nil => cases b <;> simp [List.nil_lt_cons]
  | cons x xs ih =>
    cases b with
    | nil => simp
    | cons y ys => simp [List.cons_lt_cons_iff, ih, UInt8.lt_iff_toNat_lt, UInt8.toNat_inj]

theorem Hash.lt_iff (a b : Hash) : Hash.lt a b = true ↔ a.digits < b.digits := by
  rw [Hash.lt, decide_eq_true_iff, bytes_lt_iff]
  rfl

/-- Within a label, `self > other` is the order of the keys. -/
theorem VersionedCrdsValue.gt_iff {self other : VersionedCrdsValue}
    (hl : self.value.label = other.value.label) : self.gt other = true ↔ other.key < self.key := by
  simp only [gt, hl, ne_eq, not_true_eq_false, if_false, key, Prod.Lex.toLex_lt_toLex]
  split
  · rename_i hw
    rw [Hash.lt_iff, hw]
    simp
  · rename_i hw
    have hw' : other.value.wallclock.toNat ≠ self.value.wallclock.toNat := fun h =>
      hw (UInt64.toNat_inj.1 h).symm
    simp [UInt64.lt_iff_toNat_lt, hw']

/-- Distinct values with distinct hashes have distinct keys. -/
theorem CrdsValue.eq_of_key_eq {valueHash : CrdsValue → Hash} {v w : CrdsValue}
    (hinj : valueHash v = valueHash w → v = w) (h : v.key valueHash = w.key valueHash) : v = w :=
  hinj (Hash.eq_of_digits_eq (Prod.ext_iff.1 (toLex.injective h)).2)

variable (valueHash : CrdsValue → Hash) (serializedSize : CrdsValue → Nat)

/-! ## The table, label by label -/

namespace Crds

/-- Every version in the table is filed under its label, with its value's hash. -/
def Hashed (crds : Crds) : Prop :=
  ∀ label e, crds.table.get? label = some e →
    e.value.label = label ∧ e.valueHash = valueHash e.value

/-- A value offered to the register of a label: values of other labels pass it by. -/
def offer (label : CrdsValueLabel) (cur : Option CrdsValue) (v : CrdsValue) :
    Option CrdsValue :=
  if v.label = label then Greatest.adopt (CrdsValue.key valueHash) cur v else cur

variable {valueHash}

theorem Hashed.empty : Crds.empty.Hashed valueHash := by
  intro label e h
  simp [Crds.empty, AssocMap.get?] at h

theorem key_of_hashed {crds : Crds} (hc : crds.Hashed valueHash) {label : CrdsValueLabel}
    {e : VersionedCrdsValue} (he : crds.table.get? label = some e) :
    e.key = e.value.key valueHash := by
  simp [VersionedCrdsValue.key, CrdsValue.key, (hc label e he).2]

/-- The outcome of `insert_versioned` at a label with a hashed version `e`: replaced when the new
value's key is greater. -/
theorem insert_of_current {crds : Crds} (hc : crds.Hashed valueHash) {v : CrdsValue}
    {e : VersionedCrdsValue} (he : crds.table.get? v.label = some e) (now : UInt64) :
    (crds.insert valueHash v now).2 =
      if e.value.key valueHash < v.key valueHash then
        ⟨crds.table.insert v.label (VersionedCrdsValue.new valueHash now v)⟩
      else crds := by
  have hgt : (VersionedCrdsValue.new valueHash now v).gt e = true ↔
      e.value.key valueHash < v.key valueHash := by
    rw [VersionedCrdsValue.gt_iff (hc _ e he).1.symm, key_of_hashed hc he]
    rfl
  have hlabel : (VersionedCrdsValue.new valueHash now v).value.label = v.label := rfl
  simp only [insert, insertVersioned, hlabel, he, Option.map_some, Option.getD_some]
  by_cases hlt : e.value.key valueHash < v.key valueHash
  · rw [if_pos (hgt.2 hlt), if_pos hlt]
  · rw [if_neg (mt hgt.1 hlt), if_neg hlt]

/-- `insert_versioned` at a label with no version: the new one is added. -/
theorem insert_of_none {crds : Crds} {v : CrdsValue} (he : crds.table.get? v.label = none)
    (now : UInt64) :
    (crds.insert valueHash v now).2 =
      ⟨crds.table.insert v.label (VersionedCrdsValue.new valueHash now v)⟩ := by
  have hlabel : (VersionedCrdsValue.new valueHash now v).value.label = v.label := rfl
  simp only [insert, insertVersioned, hlabel, he, Option.map_none, Option.getD_none, if_true]

/-- One insert offers the value to its label's register. -/
theorem lookup_insert {crds : Crds} (hc : crds.Hashed valueHash) (v : CrdsValue) (now : UInt64)
    (label : CrdsValueLabel) :
    (crds.insert valueHash v now).2.lookup label = offer valueHash label (crds.lookup label) v := by
  unfold offer
  by_cases hl : v.label = label
  · subst hl
    rw [if_pos rfl]
    cases he : crds.table.get? v.label with
    | none => simp [lookup, insert_of_none he, he, Greatest.adopt, VersionedCrdsValue.new]
    | some e =>
      rw [insert_of_current hc he]
      simp only [lookup, he, Option.map_some, Greatest.adopt]
      split
      · simp [VersionedCrdsValue.new]
      · rw [he]
        rfl
  · rw [if_neg hl]
    have hkeep : (crds.table.insert v.label (VersionedCrdsValue.new valueHash now v)).get? label =
        crds.table.get? label := AssocMap.get?_insert_of_ne _ (Ne.symm hl) _
    cases he : crds.table.get? v.label with
    | none => simp [lookup, insert_of_none he, hkeep]
    | some e =>
      rw [insert_of_current hc he]
      split
      · simp [lookup, hkeep]
      · rfl

theorem Hashed.insert {crds : Crds} (hc : crds.Hashed valueHash) (v : CrdsValue) (now : UInt64) :
    (crds.insert valueHash v now).2.Hashed valueHash := by
  -- the table with the new version added is hashed
  have hnew : Crds.Hashed valueHash
      ⟨crds.table.insert v.label (VersionedCrdsValue.new valueHash now v)⟩ := by
    intro label e h
    by_cases hl : label = v.label
    · subst hl
      simp only [AssocMap.get?_insert_self, Option.some.injEq] at h
      subst h
      exact ⟨rfl, rfl⟩
    · exact hc label e (by rwa [AssocMap.get?_insert_of_ne _ hl] at h)
  cases he : crds.table.get? v.label with
  | none => rwa [insert_of_none he]
  | some e =>
    rw [insert_of_current hc he]
    split
    · exact hnew
    · exact hc

theorem lookup_updateLabelTimestamp (crds : Crds) (id : CrdsValueLabel) (now : UInt64)
    (label : CrdsValueLabel) : (crds.updateLabelTimestamp id now).lookup label = crds.lookup label := by
  by_cases hl : label = id
  · subst hl
    simp [lookup, updateLabelTimestamp, Option.map_map, Function.comp_def]
  · simp [lookup, updateLabelTimestamp, AssocMap.get?_modify_of_ne _ hl]

theorem Hashed.updateLabelTimestamp {crds : Crds} (hc : crds.Hashed valueHash)
    (id : CrdsValueLabel) (now : UInt64) : (crds.updateLabelTimestamp id now).Hashed valueHash := by
  intro label e h
  by_cases hl : label = id
  · subst hl
    simp only [Crds.updateLabelTimestamp, AssocMap.get?_modify_self, Option.map_eq_some_iff] at h
    obtain ⟨e₀, he₀, rfl⟩ := h
    exact hc label e₀ he₀
  · exact hc label e (by rwa [Crds.updateLabelTimestamp, AssocMap.get?_modify_of_ne _ hl] at h)

/-- Refreshing the timestamps of a key's labels changes no value. -/
theorem lookup_updateRecordTimestamp (crds : Crds) (pubkey : Pubkey) (now : UInt64)
    (label : CrdsValueLabel) :
    (crds.updateRecordTimestamp pubkey now).lookup label = crds.lookup label := by
  unfold updateRecordTimestamp
  generalize CrdsValue.recordLabels pubkey = labels
  induction labels generalizing crds with
  | nil => rfl
  | cons id labels ih => rw [List.foldl_cons, ih, lookup_updateLabelTimestamp]

theorem Hashed.updateRecordTimestamp {crds : Crds} (hc : crds.Hashed valueHash)
    (pubkey : Pubkey) (now : UInt64) : (crds.updateRecordTimestamp pubkey now).Hashed valueHash := by
  unfold Crds.updateRecordTimestamp
  generalize CrdsValue.recordLabels pubkey = labels
  induction labels generalizing crds with
  | nil => exact hc
  | cons id labels ih => exact ih (hc.updateLabelTimestamp id now)

end Crds

/-! ## Deliveries -/

/-- How values reach a node's table: `Crds::insert`, a pull response, or a pull request. -/
inductive Delivery where
  | insert (value : CrdsValue) (now : UInt64)
  | pullResponse («from» : Pubkey) (response : List CrdsValue) (now : UInt64)
  | pullRequest (caller : CrdsValue) (filter : Bloom Hash) (now : UInt64)

/-- The values a delivery brings, in order. -/
def Delivery.values : Delivery → List CrdsValue
  | .insert value _ => [value]
  | .pullResponse _ response _ => response
  | .pullRequest caller _ _ => [caller]

/-- The values a run of deliveries brings, in order. -/
def deliveredValues (ds : List Delivery) : List CrdsValue := ds.flatMap Delivery.values

namespace CrdsGossipPull

/-- The pull state and table after a delivery; `none` when `process_pull_request` panics. -/
def deliver (pull : CrdsGossipPull) (crds : Crds) : Delivery → Option (CrdsGossipPull × Crds)
  | .insert value now => some (pull, (crds.insert valueHash value now).2)
  | .pullResponse «from» response now =>
    let (pull, crds, _) := pull.processPullResponse valueHash crds «from» response now
    some (pull, crds)
  | .pullRequest caller filter now =>
    (pull.processPullRequest valueHash serializedSize crds caller filter now).map
      fun (pull, crds, _) => (pull, crds)

/-- Deliveries one after another; `none` when one of them panics. -/
def deliverAll : CrdsGossipPull → Crds → List Delivery → Option (CrdsGossipPull × Crds)
  | pull, crds, [] => some (pull, crds)
  | pull, crds, d :: ds =>
    match pull.deliver valueHash serializedSize crds d with
    | some (pull, crds) => deliverAll pull crds ds
    | none => none

/-- What a delivery does to a hashed table: it stays hashed, and each label's register is offered
the delivery's values. -/
def Offers (crds crds' : Crds) (vs : List CrdsValue) : Prop :=
  crds'.Hashed valueHash ∧
    ∀ label, crds'.lookup label = vs.foldl (Crds.offer valueHash label) (crds.lookup label)

variable {valueHash serializedSize}

/-- A fold whose every step offers one value offers them all. -/
theorem offers_foldl {γ : Type} (g : γ → CrdsValue → γ) (proj : γ → Crds)
    (hg : ∀ acc r, (proj acc).Hashed valueHash → Offers valueHash (proj acc) (proj (g acc r)) [r]) :
    ∀ (rs : List CrdsValue) (acc res : γ), (proj acc).Hashed valueHash → rs.foldl g acc = res →
      Offers valueHash (proj acc) (proj res) rs
  | [], acc, _, hc, rfl => ⟨hc, fun _ => rfl⟩
  | r :: rs, acc, res, hc, hres => by
    obtain ⟨hc₁, hl₁⟩ := hg acc r hc
    obtain ⟨hc₂, hl₂⟩ := offers_foldl g proj hg rs (g acc r) res hc₁ hres
    exact ⟨hc₂, fun label => by rw [hl₂, hl₁]; rfl⟩

theorem offers_insert {crds : Crds} (hc : crds.Hashed valueHash) (v : CrdsValue) (now : UInt64) :
    Offers valueHash crds (crds.insert valueHash v now).2 [v] :=
  ⟨hc.insert v now, fun label => Crds.lookup_insert hc v now label⟩

/-- Refreshing timestamps after an offer keeps it an offer. -/
theorem Offers.updateRecordTimestamp {crds crds' : Crds} {vs : List CrdsValue}
    (h : Offers valueHash crds crds' vs) (pubkey : Pubkey) (now : UInt64) :
    Offers valueHash crds (crds'.updateRecordTimestamp pubkey now) vs :=
  ⟨h.1.updateRecordTimestamp pubkey now, fun label => by
    rw [Crds.lookup_updateRecordTimestamp, h.2]⟩

theorem offers_processPullResponse (pull : CrdsGossipPull) {crds : Crds}
    (hc : crds.Hashed valueHash) («from» : Pubkey) (response : List CrdsValue) (now : UInt64) :
    Offers valueHash crds (pull.processPullResponse valueHash crds «from» response now).2.1
      response := by
  unfold processPullResponse
  split
  rename_i pull' crds' failed hfold
  refine (offers_foldl _ (fun acc => acc.2.1) ?_ response _ _ hc hfold).updateRecordTimestamp _ now
  -- each response is inserted, and its owner's timestamps are refreshed when it is kept
  rintro ⟨pull, crds, failed⟩ r hc
  have hins := offers_insert hc r now
  dsimp only
  split
  · rename_i crds'' _ heq
    rw [heq] at hins
    exact hins
  · rename_i old crds'' heq
    rw [heq] at hins
    split <;> exact hins.updateRecordTimestamp _ now

theorem offers_processPullRequest {pull pull' : CrdsGossipPull} {crds crds' : Crds}
    (hc : crds.Hashed valueHash) {caller : CrdsValue} {filter : Bloom Hash} {now : UInt64}
    {rv : List CrdsValue}
    (h : pull.processPullRequest valueHash serializedSize crds caller filter now =
      some (pull', crds', rv)) :
    Offers valueHash crds crds' [caller] := by
  simp only [processPullRequest, Option.bind_eq_bind, Option.bind_eq_some_iff,
    Option.pure_def, Option.some.injEq] at h
  obtain ⟨_, _, h⟩ := h
  -- the caller's value is inserted, then its key's timestamps are refreshed
  rw [← (Prod.mk.inj (Prod.mk.inj h).2).1]
  exact (offers_insert hc caller now).updateRecordTimestamp _ now

theorem offers_deliver {pull pull' : CrdsGossipPull} {crds crds' : Crds}
    (hc : crds.Hashed valueHash) {d : Delivery}
    (h : pull.deliver valueHash serializedSize crds d = some (pull', crds')) :
    Offers valueHash crds crds' d.values := by
  cases d with
  | insert value now =>
    cases h
    exact offers_insert hc value now
  | pullResponse «from» response now =>
    simp only [deliver, Option.some.injEq] at h
    rw [← (Prod.mk.inj h).2]
    exact offers_processPullResponse pull hc «from» response now
  | pullRequest caller filter now =>
    obtain ⟨⟨p, c, rv⟩, hreq, hpair⟩ := Option.map_eq_some_iff.1 h
    cases hpair
    exact offers_processPullRequest hc hreq

/-- Offers one after another are an offer of all the values, in order. -/
theorem Offers.trans {crds₁ crds₂ crds₃ : Crds} {vs₁ vs₂ : List CrdsValue}
    (h₁ : Offers valueHash crds₁ crds₂ vs₁) (h₂ : Offers valueHash crds₂ crds₃ vs₂) :
    Offers valueHash crds₁ crds₃ (vs₁ ++ vs₂) :=
  ⟨h₂.1, fun label => by rw [h₂.2, h₁.2, List.foldl_append]⟩

/-- A run of deliveries offers every value it brings, in order.  The induction is on the run. -/
theorem offers_deliverAll :
    ∀ (ds : List Delivery) (pull : CrdsGossipPull) (crds : Crds) (r : CrdsGossipPull × Crds),
      crds.Hashed valueHash → pull.deliverAll valueHash serializedSize crds ds = some r →
      Offers valueHash crds r.2 (deliveredValues ds)
  | [], _, _, _, hc, rfl => ⟨hc, fun _ => rfl⟩
  | d :: ds, pull, crds, r, hc, h => by
    simp only [deliverAll] at h
    split at h
    · rename_i pull₁ crds₁ hd
      have h₁ := offers_deliver hc hd
      exact h₁.trans (offers_deliverAll ds pull₁ crds₁ r h₁.1 h)
    · cases h

end CrdsGossipPull

/-! ## Convergence -/

namespace Crds

variable {valueHash}

/-- A label's register is offered the values of its label, in order. -/
theorem foldl_offer (label : CrdsValueLabel) :
    ∀ (vs : List CrdsValue) (cur : Option CrdsValue),
      vs.foldl (offer valueHash label) cur =
        (vs.filter (·.label = label)).foldl (Greatest.adopt (CrdsValue.key valueHash)) cur
  | [], _ => rfl
  | v :: vs, cur => by
    by_cases hv : v.label = label
    · rw [List.foldl_cons, List.filter_cons_of_pos (by simpa using hv), List.foldl_cons,
        offer, if_pos hv, foldl_offer label vs]
    · rw [List.foldl_cons, List.filter_cons_of_neg (by simpa using hv), offer, if_neg hv,
        foldl_offer label vs]

/-- Offers never lower the key a label holds. -/
theorem foldl_offer_some (label : CrdsValueLabel) :
    ∀ (vs : List CrdsValue) {cur : Option CrdsValue} {v : CrdsValue}, cur = some v →
      ∃ v', vs.foldl (offer valueHash label) cur = some v' ∧
        v.key valueHash ≤ v'.key valueHash
  | [], _, v, rfl => ⟨v, rfl, le_refl _⟩
  | w :: vs, cur, v, hcur => by
    subst hcur
    rw [List.foldl_cons]
    unfold offer
    split
    · -- the register is offered `w`: whatever it keeps has a key no lower
      have hne : Greatest.adopt (CrdsValue.key valueHash) (some v) w ≠ none :=
        Greatest.adopt_ne_none (some v) w
      obtain ⟨m, hm⟩ := Option.ne_none_iff_exists'.1 hne
      obtain ⟨v', hv', hle⟩ := foldl_offer_some label vs hm
      exact ⟨v', hv', (Greatest.le_key_adopt hm).trans hle⟩
    · exact foldl_offer_some label vs rfl

/-- Reached from an empty table, a label holds the register of the values of its label. -/
theorem lookup_of_offers_empty {crds : Crds} {vs : List CrdsValue}
    (h : CrdsGossipPull.Offers valueHash Crds.empty crds vs) (label : CrdsValueLabel) :
    crds.lookup label =
      Greatest.select (CrdsValue.key valueHash) (vs.filter (·.label = label)) := by
  rw [h.2, foldl_offer]
  rfl

end Crds

theorem crds_merge_converges {ds₁ ds₂ : List Delivery} {pull₁ pull₂ : CrdsGossipPull}
    {r₁ r₂ : CrdsGossipPull × Crds}
    (h₁ : pull₁.deliverAll valueHash serializedSize Crds.empty ds₁ = some r₁)
    (h₂ : pull₂.deliverAll valueHash serializedSize Crds.empty ds₂ = some r₂)
    (hsame : ∀ v, v ∈ deliveredValues ds₁ ↔ v ∈ deliveredValues ds₂)
    (hinj : ∀ v ∈ deliveredValues ds₁, ∀ w ∈ deliveredValues ds₁,
      valueHash v = valueHash w → v = w) :
    (∀ label, r₁.2.lookup label = r₂.2.lookup label ∧
      ∀ v, r₁.2.lookup label = some v ↔
        v ∈ deliveredValues ds₁ ∧ v.label = label ∧
          ∀ w ∈ deliveredValues ds₁, w.label = label → w.key valueHash ≤ v.key valueHash) ∧
    ∀ (pull : CrdsGossipPull) (ds ds' : List Delivery) (r r' : CrdsGossipPull × Crds),
      pull.deliverAll valueHash serializedSize Crds.empty ds = some r →
      r.1.deliverAll valueHash serializedSize r.2 ds' = some r' →
      ∀ label v, r.2.lookup label = some v →
        ∃ v', r'.2.lookup label = some v' ∧ v.key valueHash ≤ v'.key valueHash := by
  have ho₁ := CrdsGossipPull.offers_deliverAll ds₁ pull₁ _ r₁ Crds.Hashed.empty h₁
  have ho₂ := CrdsGossipPull.offers_deliverAll ds₂ pull₂ _ r₂ Crds.Hashed.empty h₂
  refine ⟨fun label => ⟨?_, fun v => ⟨fun hv => ?_, fun ⟨hmem, hl, hmax⟩ => ?_⟩⟩, ?_⟩
  · -- both registers were offered the same values
    rw [Crds.lookup_of_offers_empty ho₁, Crds.lookup_of_offers_empty ho₂]
    refine Greatest.select_eq_of_mem_iff (fun a ha b hb hab => ?_) fun a => ?_
    · exact CrdsValue.eq_of_key_eq (hinj a (List.mem_filter.1 ha).1 b (List.mem_filter.1 hb).1)
        hab
    · simp only [List.mem_filter, hsame]
  · rw [Crds.lookup_of_offers_empty ho₁] at hv
    obtain ⟨hmem, hmax⟩ := Greatest.select_spec hv
    obtain ⟨hmem, hl⟩ := List.mem_filter.1 hmem
    refine ⟨hmem, by simpa using hl, fun w hw hwl => hmax w (List.mem_filter.2 ⟨hw, ?_⟩)⟩
    simpa using hwl
  · rw [Crds.lookup_of_offers_empty ho₁]
    refine Greatest.select_eq_of_max (fun a ha b hb hab => ?_)
      (List.mem_filter.2 ⟨hmem, by simpa using hl⟩) fun w hw => ?_
    · exact CrdsValue.eq_of_key_eq (hinj a (List.mem_filter.1 ha).1 b (List.mem_filter.1 hb).1)
        hab
    · obtain ⟨hw, hwl⟩ := List.mem_filter.1 hw
      exact hmax w hw (by simpa using hwl)
  · -- no later delivery lowers a label's key
    intro pull ds ds' r r' hr hr' label v hv
    have ho := CrdsGossipPull.offers_deliverAll ds pull _ r Crds.Hashed.empty hr
    have ho' := CrdsGossipPull.offers_deliverAll ds' r.1 r.2 r' ho.1 hr'
    rw [ho'.2 label]
    exact Crds.foldl_offer_some label _ hv

/-- One contact info inserted once, or twice at other times: the tables agree on its label. -/
theorem crds_merge_converges_repeated_insert :
    let v : CrdsValue := .contactInfo ⟨default, default, ⟨[], 0⟩, 7⟩
    (Crds.empty.insert (fun _ => default) v 0).2.lookup v.label =
      ((Crds.empty.insert (fun _ => default) v 3).2.insert (fun _ => default) v 9).2.lookup
        v.label := by
  intro v
  have h₁ : CrdsGossipPull.default.deliverAll (fun _ => default) (fun _ => 0) Crds.empty
      [.insert v 0] = some (CrdsGossipPull.default, (Crds.empty.insert (fun _ => default) v 0).2) :=
    rfl
  have h₂ : CrdsGossipPull.default.deliverAll (fun _ => default) (fun _ => 0) Crds.empty
      [.insert v 3, .insert v 9] = some (CrdsGossipPull.default,
        ((Crds.empty.insert (fun _ => default) v 3).2.insert (fun _ => default) v 9).2) := rfl
  exact ((crds_merge_converges (fun _ => default) (fun _ => 0) h₁ h₂
    (fun w => by simp [deliveredValues, Delivery.values])
    (fun a ha b hb _ => by
      simp only [deliveredValues, Delivery.values, List.flatMap_cons, List.flatMap_nil,
        List.append_nil, List.mem_singleton] at ha hb
      rw [ha, hb])).1 v.label).1

end Gossip

end Morgan
