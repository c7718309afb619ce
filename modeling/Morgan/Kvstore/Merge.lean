import Mathlib
import Morgan.Kvstore.Table

/-!
# The k-way merge

`Merged` merges sources, each in increasing key order, into one: its heads hold the next record of
each source keyed by the key and the source's index, `next` takes the least key, every other
version of it among the heads, and yields the version of the greatest commit id, the first taken
among equal ones, unless it is a deletion.

What the merge is for is stated on the sources: `newest` is a key's version of the greatest commit
id, the earliest source's among equal ones.  The state of the merge is read as what is left of
each source (`pending`): a round of `next` takes the least key left out of every source and finds
its newest version (`Inv.round`), so the iteration yields, in increasing key order, exactly the keys
whose newest version is live, each with that version (`merged_newest_wins`).
-/

namespace Morgan

namespace Kvstore

variable {κ : Type}

/-! ## The newest version -/

/-- The versions of a key in the sources, in the sources' order. -/
def versions [DecidableEq κ] (sources : List (List (κ × Value))) (key : κ) : List Value :=
  sources.filterMap fun source => (source.find? (·.1 = key)).map (·.2)

/-- The newest version of a key in the sources: the greatest commit id, the earliest source among
equal ones. -/
def newest [DecidableEq κ] (sources : List (List (κ × Value))) (key : κ) : Option Value :=
  -- the order of `Int` itself, whose comparisons run
  @List.argmax _ _ Int.instLinearOrder.toPartialOrder.toPreorder (fun a b => Int.decLt a b) Value.ts
    (versions sources key)

/-- The newest of versions in order: the first one, replaced by each later one of a greater commit
id, as `Merged::next` does. -/
theorem newest_eq_foldl [DecidableEq κ] {sources : List (List (κ × Value))} {key : κ}
    {v : Value} {l : List Value} (h : versions sources key = v :: l) :
    newest sources key =
      some (l.foldl (fun val other => if other.ts > val.ts then other else val) v) := by
  unfold newest
  rw [h]
  clear h
  show l.foldl _ (some v) = _
  induction l generalizing v with
  | nil => rfl
  | cons w l ih =>
    rw [List.foldl_cons, List.foldl_cons, ← ih]
    by_cases hlt : v.ts < w.ts
    · rw [if_pos hlt]
      exact congrArg (l.foldl _) (if_pos hlt)
    · rw [if_neg hlt]
      exact congrArg (l.foldl _) (if_neg hlt)

/-- Without the records of one key, the sources have no versions of it and the same of any other. -/
theorem versions_map_filter [DecidableEq κ] (sources : List (List (κ × Value))) (key k : κ) :
    versions (sources.map (·.filter (·.1 ≠ key))) k =
      if k = key then [] else versions sources k := by
  unfold versions
  rw [List.filterMap_map]
  split_ifs with hk
  · subst hk
    refine List.filterMap_eq_nil_iff.2 fun source _ => ?_
    rw [Function.comp_apply, List.find?_filter, Option.map_eq_none_iff, List.find?_eq_none]
    intro e _ he
    simp at he
  · refine List.filterMap_congr fun source _ => ?_
    rw [Function.comp_apply, List.find?_filter]
    congr 2
    funext e
    by_cases he : e.1 = k
    · simp [he, hk]
    · simp [he]

theorem newest_map_filter [DecidableEq κ] (sources : List (List (κ × Value))) (key k : κ) :
    newest (sources.map (·.filter (·.1 ≠ key))) k =
      if k = key then none else newest sources k := by
  unfold newest
  rw [versions_map_filter]
  split_ifs <;> rfl

/-- A key with a newest version is a key of a record of the sources. -/
theorem exists_of_newest [DecidableEq κ] {sources : List (List (κ × Value))} {k : κ} {v : Value}
    (h : newest sources k = some v) : ∃ source ∈ sources, ∃ e ∈ source, e.1 = k := by
  have hv : v ∈ versions sources k := List.argmax_mem h
  obtain ⟨source, hsource, hfind⟩ := List.mem_filterMap.1 hv
  obtain ⟨e, he, -⟩ := Option.map_eq_some_iff.1 hfind
  exact ⟨source, hsource, e, List.mem_of_find?_eq_some he, by simpa using List.find?_some he⟩

/-! ## Lists over the sources -/

/-- Over the indexes below `n`: a function with no value below `i` and one at `i`, and another
equal to it past `i` and with no value up to `i`. -/
theorem filterMap_range_of_first {β : Type} {f g : Nat → Option β} {n i : Nat} {b : β}
    (hi : i < n) (hlo : ∀ j < i, f j = none ∧ g j = none) (hf : f i = some b) (hg : g i = none)
    (hhi : ∀ j, i < j → f j = g j) :
    (List.range n).filterMap f = b :: (List.range n).filterMap g := by
  induction n with
  | zero => cases hi
  | succ n ih =>
    rw [List.range_succ, List.filterMap_append, List.filterMap_append]
    rcases Nat.lt_succ_iff_lt_or_eq.1 hi with hlt | rfl
    · rw [ih hlt]
      simp only [List.filterMap_cons, List.filterMap_nil, hhi n hlt, List.cons_append]
    · have hf' : (List.range i).filterMap f = [] :=
        List.filterMap_eq_nil_iff.2 fun j hj => (hlo j (List.mem_range.1 hj)).1
      have hg' : (List.range i).filterMap g = [] :=
        List.filterMap_eq_nil_iff.2 fun j hj => (hlo j (List.mem_range.1 hj)).2
      simp [hf', hg', hf, hg]

/-- Replacing one of the lists: its length comes off the total and the new one's goes on. -/
theorem sum_length_set {α : Type} (l : List (List α)) {i : Nat} (hi : i < l.length)
    (a : List α) :
    ((l.set i a).map List.length).sum + l[i].length = (l.map List.length).sum + a.length := by
  induction l generalizing i with
  | nil => cases hi
  | cons x l ih =>
    cases i with
    | zero =>
      simp only [List.set_cons_zero, List.map_cons, List.sum_cons, List.getElem_cons_zero]
      omega
    | succ i =>
      simp only [List.set_cons_succ, List.map_cons, List.sum_cons, List.getElem_cons_succ]
      have := ih (i := i) (by simpa using hi)
      omega

namespace Merged

/-! ## What is left of the sources -/

/-- The head of source `i` among the heads, with its key. -/
def headAt (m : Merged κ) (i : Nat) : Option (κ × Value) :=
  (m.heads.find? fun e => (ofLex e.1).2 = i).map fun e => ((ofLex e.1).1, e.2)

/-- What is left of source `i`: its head, then the rest of it. -/
def pending (m : Merged κ) (i : Nat) : List (κ × Value) :=
  (m.headAt i).toList ++ m.sources.getD i []

/-- What is left of the sources, each in its place. -/
def remaining (m : Merged κ) : List (List (κ × Value)) :=
  (List.range m.sources.length).map m.pending

theorem headAt_cons_self {h : Lex (κ × Nat)} {v : Value}
    {heads : SortedMap (Lex (κ × Nat)) Value}
    (sources : List (List (κ × Value))) :
    headAt ⟨sources, (h, v) :: heads⟩ (ofLex h).2 = some ((ofLex h).1, v) := by
  simp [headAt]

theorem headAt_cons_of_ne {h : Lex (κ × Nat)} {v : Value}
    {heads : SortedMap (Lex (κ × Nat)) Value}
    (sources : List (List (κ × Value))) {i : Nat} (hi : (ofLex h).2 ≠ i) :
    headAt ⟨sources, (h, v) :: heads⟩ i = headAt ⟨sources, heads⟩ i := by
  simp [headAt, hi]

/-- No head of source `i`. -/
theorem headAt_eq_none {m : Merged κ} {i : Nat} (h : ∀ e ∈ m.heads, (ofLex e.1).2 ≠ i) :
    m.headAt i = none := by
  simp only [headAt, Option.map_eq_none_iff, List.find?_eq_none, decide_eq_true_eq]
  exact h

variable [LinearOrder κ]

/-! ## Advancing a source -/

/-- What `advance` can do: move the first record of the source among the heads, or nothing when
the source is missing or empty. -/
theorem advance_cases (m : Merged κ) (i : Nat) :
    (∃ k v rest, m.sources[i]? = some ((k, v) :: rest) ∧
      m.advance i = ⟨m.sources.set i rest, m.heads.insert (toLex (k, i)) v⟩) ∨
    ((∀ k v rest, m.sources[i]? ≠ some ((k, v) :: rest)) ∧ m.advance i = m) := by
  unfold advance
  split
  · rename_i k v rest hsrc
    exact .inl ⟨k, v, rest, hsrc, rfl⟩
  · rename_i hsrc
    exact .inr ⟨hsrc, rfl⟩

theorem headAt_advance_of_ne {m : Merged κ} {i j : Nat} (hij : i ≠ j) :
    (m.advance i).headAt j = m.headAt j := by
  rcases advance_cases m i with ⟨k, v, rest, -, heq⟩ | ⟨-, heq⟩
  · rw [heq]
    unfold headAt
    rw [SortedMap.find?_insert_of_not (by simp [hij])]
    intro e _ he
    simp [he, hij]
  · rw [heq]

theorem sources_advance_of_ne {m : Merged κ} {i j : Nat} (hij : i ≠ j) :
    (m.advance i).sources.getD j [] = m.sources.getD j [] := by
  rcases advance_cases m i with ⟨k, v, rest, -, heq⟩ | ⟨-, heq⟩
  · rw [heq]
    simp [List.getD_eq_getElem?_getD, hij]
  · rw [heq]

theorem length_advance (m : Merged κ) (i : Nat) :
    (m.advance i).sources.length = m.sources.length := by
  rcases advance_cases m i with ⟨k, v, rest, -, heq⟩ | ⟨-, heq⟩
  · rw [heq]
    exact List.length_set
  · rw [heq]

/-- Advancing a source with no head moves its first record among the heads, and leaves none of it
behind when it has none. -/
theorem pending_advance_self {m : Merged κ} {i : Nat}
    (hi : ∀ e ∈ m.heads, (ofLex e.1).2 ≠ i) :
    (m.advance i).pending i = m.pending i ∧
      ((m.advance i).headAt i = none → (m.advance i).sources.getD i [] = []) := by
  rcases advance_cases m i with ⟨k, v, rest, hsrc, heq⟩ | ⟨hsrc, heq⟩
  · rw [heq]
    have hlt : i < m.sources.length := (List.getElem?_eq_some_iff.1 hsrc).1
    have hhead :
        headAt ⟨m.sources.set i rest, m.heads.insert (toLex (k, i)) v⟩ i = some (k, v) := by
      unfold headAt
      rw [SortedMap.find?_insert_of_forall_not (by simp) (by simpa using hi)]
      rfl
    refine ⟨?_, fun hnone => absurd (hhead.symm.trans hnone) (Option.some_ne_none _)⟩
    rw [pending, pending, hhead, headAt_eq_none hi, List.getD_eq_getElem?_getD,
      List.getD_eq_getElem?_getD, List.getElem?_set_self hlt, hsrc]
    rfl
  · rw [heq]
    refine ⟨rfl, fun _ => ?_⟩
    rw [List.getD_eq_getElem?_getD]
    cases hget : m.sources[i]? with
    | none => rfl
    | some src =>
      cases src with
      | nil => rfl
      | cons r rest => exact (hsrc r.1 r.2 rest hget).elim

/-- Advancing a source with no head leaves what is left of every source. -/
theorem pending_advance {m : Merged κ} {i : Nat} (hi : ∀ e ∈ m.heads, (ofLex e.1).2 ≠ i)
    (j : Nat) : (m.advance i).pending j = m.pending j := by
  by_cases hij : i = j
  · subst hij
    exact (pending_advance_self hi).1
  · rw [pending, pending, headAt_advance_of_ne hij, sources_advance_of_ne hij]


/-- Advancing a source leaves the heads, or puts a record of the source among them. -/
theorem heads_advance (m : Merged κ) (i : Nat) :
    (m.advance i).heads = m.heads ∨ ∃ k v, i < m.sources.length ∧
      (m.advance i).heads = m.heads.insert (toLex (k, i)) v := by
  rcases advance_cases m i with ⟨k, v, rest, hsrc, heq⟩ | ⟨-, heq⟩
  · exact .inr ⟨k, v, (List.getElem?_eq_some_iff.1 hsrc).1, by rw [heq]⟩
  · exact .inl (by rw [heq])

/-- Advancing a source with no head moves a record from the source among the heads. -/
theorem size_advance {m : Merged κ} {i : Nat} (hi : ∀ e ∈ m.heads, (ofLex e.1).2 ≠ i) :
    (m.advance i).size = m.size := by
  rcases advance_cases m i with ⟨k, v, rest, hsrc, heq⟩ | ⟨-, heq⟩
  · rw [heq]
    have hlt : i < m.sources.length := (List.getElem?_eq_some_iff.1 hsrc).1
    have hget : m.sources[i] = (k, v) :: rest := (List.getElem?_eq_some_iff.1 hsrc).2
    have hset := sum_length_set m.sources hlt rest
    have hins : (m.heads.insert (toLex (k, i)) v).length = m.heads.length + 1 :=
      SortedMap.length_insert (fun e he heq => hi e he (by rw [heq]; rfl)) v
    rw [hget, List.length_cons] at hset
    simp only [size, hins]
    omega
  · rw [heq]

/-! ## The state of the merge -/

/-- The heads in key order, each of a source there is, at most one for each source. -/
structure HeadsOk (m : Merged κ) : Prop where
  sorted : SortedMap.Sorted m.heads
  index_lt : ∀ e ∈ m.heads, (ofLex e.1).2 < m.sources.length
  index_inj : ∀ e ∈ m.heads, ∀ e' ∈ m.heads, (ofLex e.1).2 = (ofLex e'.1).2 → e = e'

/-- Advancing a source with no head keeps the heads well formed. -/
theorem HeadsOk.advance {m : Merged κ} (hm : m.HeadsOk) {i : Nat}
    (hi : ∀ e ∈ m.heads, (ofLex e.1).2 ≠ i) : (m.advance i).HeadsOk := by
  rcases heads_advance m i with heq | ⟨k, v, hlt, heq⟩
  · refine ⟨heq ▸ hm.sorted, ?_, heq ▸ hm.index_inj⟩
    rw [heq, length_advance]
    exact hm.index_lt
  · refine ⟨heq ▸ hm.sorted.insert _ _, ?_, ?_⟩
    · rw [heq, length_advance]
      intro e he
      rcases SortedMap.mem_insert he with rfl | he
      · exact hlt
      · exact hm.index_lt e he
    -- the record put among the heads is the only one of its source
    · rw [heq]
      intro e he e' he' hidx
      rcases SortedMap.mem_insert he with rfl | he <;>
        rcases SortedMap.mem_insert he' with rfl | he'
      · rfl
      · exact absurd hidx.symm (hi e' he')
      · exact absurd hidx (hi e he)
      · exact hm.index_inj e he e' he' hidx

/-- The merge's state: well formed heads, what is left of each source in increasing key order,
and nothing left of a source without a head. -/
structure Inv (m : Merged κ) : Prop extends m.HeadsOk where
  pending_sorted : ∀ i, (m.pending i).Pairwise fun a b => a.1 < b.1
  exhausted : ∀ i, m.headAt i = none → m.sources.getD i [] = []

/-- Taking the least head and advancing its source: the source's first record is gone and nothing
else is. -/
theorem Inv.pop {m : Merged κ} (hinv : m.Inv) {h : Lex (κ × Nat)} {v : Value}
    {heads : SortedMap (Lex (κ × Nat)) Value} (hm : m.heads = (h, v) :: heads) :
    let m' := advance ⟨m.sources, heads⟩ (ofLex h).2
    m'.Inv ∧ m'.sources.length = m.sources.length ∧ m'.size + 1 = m.size ∧
      m.pending (ofLex h).2 = ((ofLex h).1, v) :: m'.pending (ofLex h).2 ∧
      ∀ j, j ≠ (ofLex h).2 → m'.pending j = m.pending j := by
  intro m'
  -- the other heads are of other sources
  have hother : ∀ e ∈ heads, (ofLex e.1).2 ≠ (ofLex h).2 := by
    intro e he heq
    have hsorted := List.pairwise_cons.1 (hm ▸ hinv.sorted)
    have heq' :=
      hinv.index_inj e (hm ▸ List.mem_cons_of_mem _ he) (h, v) (hm ▸ List.mem_cons_self) heq
    have hlt := hsorted.1 e he
    rw [heq'] at hlt
    exact lt_irrefl h hlt
  have hheads : HeadsOk ⟨m.sources, heads⟩ :=
    ⟨(hm ▸ hinv.sorted).tail, fun e he => hinv.index_lt e (hm ▸ List.mem_cons_of_mem _ he),
      fun e he e' he' => hinv.index_inj e (hm ▸ List.mem_cons_of_mem _ he) e'
        (hm ▸ List.mem_cons_of_mem _ he')⟩
  have hm₀ : ∀ j, j ≠ (ofLex h).2 → pending ⟨m.sources, heads⟩ j = m.pending j := by
    intro j hj
    rw [pending, pending, show m = ⟨m.sources, m.heads⟩ from rfl, hm,
      headAt_cons_of_ne _ (Ne.symm hj)]
  have hself :
      m.pending (ofLex h).2 = ((ofLex h).1, v) :: pending ⟨m.sources, heads⟩ (ofLex h).2 := by
    rw [pending, pending, show m = ⟨m.sources, m.heads⟩ from rfl, hm, headAt_cons_self,
      headAt_eq_none hother]
    rfl
  have hpend : ∀ j, m'.pending j = pending ⟨m.sources, heads⟩ j := pending_advance hother
  refine ⟨⟨hheads.advance hother, fun j => ?_, fun j hnone => ?_⟩, length_advance _ _, ?_,
    hpend _ ▸ hself, fun j hj => (hpend j).trans (hm₀ j hj)⟩
  · by_cases hj : j = (ofLex h).2
    · subst hj
      have hsorted := hinv.pending_sorted (ofLex h).2
      rw [hself, ← hpend] at hsorted
      exact hsorted.of_cons
    · rw [hpend, hm₀ j hj]
      exact hinv.pending_sorted j
  · by_cases hj : j = (ofLex h).2
    · subst hj
      exact (pending_advance_self hother).2 hnone
    · rw [headAt_advance_of_ne (Ne.symm hj)] at hnone
      rw [sources_advance_of_ne (Ne.symm hj)]
      refine hinv.exhausted j ?_
      rw [show m = ⟨m.sources, m.heads⟩ from rfl, hm, headAt_cons_of_ne _ (Ne.symm hj)]
      exact hnone
  · have hsize : m'.size = size ⟨m.sources, heads⟩ := size_advance hother
    simp only [size, hm, List.length_cons] at hsize ⊢
    omega

/-- `Merged::new`: the first record of each source among the heads, and nothing taken. -/
theorem Inv.new {sources : List (List (κ × Value))}
    (hsorted : ∀ source ∈ sources, source.Pairwise fun a b => a.1 < b.1) :
    (Merged.new sources).Inv ∧ (Merged.new sources).sources.length = sources.length ∧
      ∀ i, (Merged.new sources).pending i = sources.getD i [] := by
  -- the sources advanced so far have their heads, the others have none
  have hfold : ∀ j ≤ sources.length,
      let m := (List.range j).foldl advance ⟨sources, []⟩
      m.HeadsOk ∧ m.sources.length = sources.length ∧ (∀ e ∈ m.heads, (ofLex e.1).2 < j) ∧
        (∀ i, m.pending i = sources.getD i []) ∧
        ∀ i < j, m.headAt i = none → m.sources.getD i [] = [] := by
    intro j
    induction j with
    | zero =>
      intro _
      have hnil : ∀ e ∈ ([] : SortedMap (Lex (κ × Nat)) Value), False :=
        fun _ he => List.not_mem_nil he
      refine ⟨⟨SortedMap.Sorted.nil, fun e he => (hnil e he).elim,
        fun e he => (hnil e he).elim⟩, rfl, fun e he => (hnil e he).elim, fun i => ?_, nofun⟩
      rw [pending, headAt_eq_none fun e he => (hnil e he).elim]
      rfl
    | succ j ih =>
      intro hj
      obtain ⟨hheads, hlen, hlt, hpend, hexh⟩ := ih (by omega)
      rw [List.range_succ, List.foldl_append, List.foldl_cons, List.foldl_nil]
      have hno :
          ∀ e ∈ ((List.range j).foldl advance ⟨sources, []⟩).heads, (ofLex e.1).2 ≠ j :=
        fun e he => (hlt e he).ne
      refine ⟨hheads.advance hno, (length_advance _ _).trans hlen, ?_, fun i => ?_,
        fun i hi hnone => ?_⟩
      · rcases heads_advance ((List.range j).foldl advance ⟨sources, []⟩) j with
          heq | ⟨k, v, -, heq⟩
        · rw [heq]
          exact fun e he => (hlt e he).trans (Nat.lt_succ_self j)
        · rw [heq]
          intro e he
          rcases SortedMap.mem_insert he with rfl | he
          · exact Nat.lt_succ_self j
          · exact (hlt e he).trans (Nat.lt_succ_self j)
      · rw [pending_advance hno, hpend]
      · by_cases hij : i = j
        · subst hij
          exact (pending_advance_self hno).2 hnone
        · rw [headAt_advance_of_ne (Ne.symm hij)] at hnone
          rw [sources_advance_of_ne (Ne.symm hij)]
          exact hexh i (by omega) hnone
  obtain ⟨hheads, hlen, -, hpend, hexh⟩ := hfold sources.length le_rfl
  unfold Merged.new
  refine ⟨⟨hheads, fun i => ?_, fun i hnone => ?_⟩, hlen, hpend⟩
  · rw [hpend, List.getD_eq_getElem?_getD]
    cases hget : sources[i]? with
    | none => exact List.Pairwise.nil
    | some source => exact hsorted source (List.mem_of_getElem? hget)
  · by_cases hi : i < sources.length
    · exact hexh i hi hnone
    · rw [List.getD_eq_getElem?_getD, List.getElem?_eq_none (by rw [hlen]; omega)]
      rfl

/-! ## A round of `next` -/

/-- The least head is the least of what is left: below every record left of a source, in the
order of keys and then of sources. -/
theorem Inv.front_le {m : Merged κ} (hinv : m.Inv) {h : Lex (κ × Nat)} {v : Value}
    {heads : SortedMap (Lex (κ × Nat)) Value} (hm : m.heads = (h, v) :: heads) {j : Nat}
    {e : κ × Value} (he : e ∈ m.pending j) : h ≤ toLex (e.1, j) := by
  have hpend := hinv.pending_sorted j
  unfold pending at he hpend
  cases hhead : m.headAt j with
  | none =>
    rw [hhead, hinv.exhausted j hhead] at he
    cases he
  | some r =>
    -- the source's head is one of the heads, none of which is below the least
    obtain ⟨e₀, hfind, hr⟩ := Option.map_eq_some_iff.1 hhead
    have hidx : (ofLex e₀.1).2 = j := by simpa using List.find?_some hfind
    have hle : h ≤ e₀.1 := by
      rcases List.mem_cons.1 (hm ▸ List.mem_of_find?_eq_some hfind) with rfl | hmem
      · exact le_rfl
      · exact ((List.pairwise_cons.1 (hm ▸ hinv.sorted)).1 _ hmem).le
    have hkey : e₀.1 = toLex (r.1, j) := by
      rw [← hidx, ← hr]
      rfl
    rw [hhead] at he hpend
    rcases List.mem_cons.1 he with rfl | hrest
    · exact hkey ▸ hle
    · have hlt := (List.pairwise_cons.1 hpend).1 e hrest
      exact hle.trans (hkey ▸ (Prod.Lex.toLex_le_toLex.2 (.inl hlt)))

/-- Nothing left is below the least head's key. -/
theorem Inv.key_le {m : Merged κ} (hinv : m.Inv) {h : Lex (κ × Nat)} {v : Value}
    {heads : SortedMap (Lex (κ × Nat)) Value} (hm : m.heads = (h, v) :: heads) {j : Nat}
    {e : κ × Value} (he : e ∈ m.pending j) : (ofLex h).1 ≤ e.1 := by
  rcases Prod.Lex.toLex_le_toLex.1 (hinv.front_le hm he) with hlt | ⟨heq, -⟩
  · exact hlt.le
  · exact heq.le

/-- With no heads, nothing is left. -/
theorem Inv.pending_of_heads_nil {m : Merged κ} (hinv : m.Inv) (hm : m.heads = []) (j : Nat) :
    m.pending j = [] := by
  have hnone : m.headAt j = none := headAt_eq_none (by simp [hm])
  rw [pending, hnone, hinv.exhausted j hnone]
  rfl

theorem versions_remaining (m : Merged κ) (key : κ) :
    versions m.remaining key = (List.range m.sources.length).filterMap fun j =>
      ((m.pending j).find? (·.1 = key)).map (·.2) := by
  rw [versions, remaining, List.filterMap_map]
  rfl

/-- The versions of the least head's key: the least head's value, then those left after it is
taken. -/
theorem Inv.versions_pop {m : Merged κ} (hinv : m.Inv) {h : Lex (κ × Nat)} {v : Value}
    {heads : SortedMap (Lex (κ × Nat)) Value} (hm : m.heads = (h, v) :: heads) :
    versions m.remaining (ofLex h).1 =
      v :: versions (advance ⟨m.sources, heads⟩ (ofLex h).2).remaining (ofLex h).1 := by
  obtain ⟨-, hlen, -, hself, hother⟩ := hinv.pop hm
  have hsorted := hinv.pending_sorted (ofLex h).2
  rw [hself] at hsorted
  rw [versions_remaining, versions_remaining, hlen]
  refine filterMap_range_of_first (i := (ofLex h).2)
    (hinv.index_lt (h, v) (hm ▸ List.mem_cons_self)) ?_ ?_ ?_ ?_
  · -- a source before the least head's holds only greater keys
    intro j hj
    have hnone : (m.pending j).find? (·.1 = (ofLex h).1) = none := by
      rw [List.find?_eq_none]
      intro e he heq
      have hle := hinv.front_le hm he
      rw [← toLex_ofLex h, Prod.Lex.toLex_le_toLex] at hle
      simp only [decide_eq_true_eq] at heq
      rcases hle with hlt | ⟨-, hle⟩
      · exact lt_irrefl _ (heq ▸ hlt)
      · exact absurd hj (not_lt.2 hle)
    rw [hother j (by omega), hnone]
    exact ⟨rfl, rfl⟩
  · rw [hself]
    simp
  · -- what is left of the least head's source is past its key
    rw [Option.map_eq_none_iff, List.find?_eq_none]
    intro e he heq
    simp only [decide_eq_true_eq] at heq
    exact lt_irrefl _ (heq ▸ (List.pairwise_cons.1 hsorted).1 e he)
  · intro j hj
    rw [hother j (by omega)]

/-- A key nothing left holds has no versions left. -/
theorem versions_remaining_eq_nil {m : Merged κ} {key : κ}
    (h : ∀ j, ∀ e ∈ m.pending j, e.1 ≠ key) : versions m.remaining key = [] := by
  rw [versions_remaining, List.filterMap_eq_nil_iff]
  intro j _
  rw [Option.map_eq_none_iff, List.find?_eq_none]
  intro e he heq
  exact h j e he (by simpa using heq)

/-- The inner loop of `next` takes every version of `key` left, when nothing left is below `key`:
the value it keeps is the newest of them, taken in the order of the sources, and all else stays. -/
theorem Inv.absorb_spec {key : κ} : ∀ {fuel : Nat} {m : Merged κ} (val : Value), m.Inv →
    (∀ j, ∀ e ∈ m.pending j, key ≤ e.1) → m.size ≤ fuel →
    let r := Merged.absorb key fuel m val
    r.1.Inv ∧ r.1.sources.length = m.sources.length ∧ r.1.size ≤ m.size ∧
      r.2 = (versions m.remaining key).foldl
        (fun val other => if other.ts > val.ts then other else val) val ∧
      ∀ j, r.1.pending j = (m.pending j).filter (·.1 ≠ key)
  | fuel, m, val, hinv, hle, hfuel => by
    intro r
    -- with no heads nothing is left, and the loop stops
    have hdone : m.heads = [] → r = (m, val) →
        r.1.Inv ∧ r.1.sources.length = m.sources.length ∧ r.1.size ≤ m.size ∧
          r.2 = (versions m.remaining key).foldl
            (fun val other => if other.ts > val.ts then other else val) val ∧
          ∀ j, r.1.pending j = (m.pending j).filter (·.1 ≠ key) := by
      intro hm hr
      have hnil : ∀ j, ∀ e ∈ m.pending j, e.1 ≠ key := by
        intro j e he
        rw [hinv.pending_of_heads_nil hm j] at he
        cases he
      rw [hr, versions_remaining_eq_nil hnil]
      refine ⟨hinv, rfl, le_rfl, rfl, fun j => ?_⟩
      rw [hinv.pending_of_heads_nil hm j]
      rfl
    cases fuel with
    | zero =>
      have hm : m.heads = [] := List.eq_nil_of_length_eq_zero (by unfold size at hfuel; omega)
      exact hdone hm (by cases m; rfl)
    | succ fuel =>
      cases hm : m.heads with
      | nil =>
        refine hdone hm ?_
        show Merged.absorb key (fuel + 1) m val = (m, val)
        rw [Merged.absorb, hm]
      | cons e heads =>
        obtain ⟨h, other⟩ := e
        by_cases hkey : (ofLex h).1 = key
        · -- a version of `key`: taken, and the loop goes on
          subst hkey
          obtain ⟨hinv', hlen, hsize, hself, hother⟩ := hinv.pop hm
          have hle' : ∀ j, ∀ e ∈ (advance ⟨m.sources, heads⟩ (ofLex h).2).pending j,
              (ofLex h).1 ≤ e.1 := by
            intro j e he
            by_cases hj : j = (ofLex h).2
            · subst hj
              exact hle _ e (hself ▸ List.mem_cons_of_mem _ he)
            · exact hle j e (hother j hj ▸ he)
          have hr : r = Merged.absorb (ofLex h).1 fuel (advance ⟨m.sources, heads⟩ (ofLex h).2)
              (if other.ts > val.ts then other else val) := by
            show Merged.absorb (ofLex h).1 (fuel + 1) m val = _
            rw [Merged.absorb, hm]
            exact if_pos rfl
          have hfuel' : (advance ⟨m.sources, heads⟩ (ofLex h).2).size ≤ fuel := by omega
          obtain ⟨hinv'', hlen', hsize', hval, hpend⟩ :=
            Inv.absorb_spec (if other.ts > val.ts then other else val) hinv' hle' hfuel'
          rw [hr]
          refine ⟨hinv'', hlen'.trans hlen, ?_, ?_, fun j => ?_⟩
          · omega
          · rw [hval, hinv.versions_pop hm, List.foldl_cons]
          · rw [hpend j]
            by_cases hj : j = (ofLex h).2
            · subst hj
              rw [hself, List.filter_cons_of_neg (by simp)]
            · rw [hother j hj]
        · -- a greater key: nothing left holds `key`, and the loop stops
          have hfront : key < (ofLex h).1 := by
            have := hle (ofLex h).2 ((ofLex h).1, other) (by
              rw [pending, show m = ⟨m.sources, m.heads⟩ from rfl, hm, headAt_cons_self]
              exact List.mem_cons_self)
            exact lt_of_le_of_ne this (Ne.symm hkey)
          have hnot : ∀ j, ∀ e ∈ m.pending j, e.1 ≠ key :=
            fun j e he => (hfront.trans_le (hinv.key_le hm he)).ne'
          have hr : r = (m, val) := by
            show Merged.absorb key (fuel + 1) m val = _
            rw [Merged.absorb, hm]
            exact if_neg hkey
          rw [hr, versions_remaining_eq_nil hnot]
          exact ⟨hinv, rfl, le_rfl, rfl, fun j => (List.filter_eq_self.2 fun e he => by
            simpa using hnot j e he).symm⟩

/-- A key below everything left has no newest version. -/
theorem newest_eq_none_of_lt {m : Merged κ} {key k : κ}
    (hle : ∀ j, ∀ e ∈ m.pending j, key ≤ e.1)
    (hk : k < key) : newest m.remaining k = none := by
  unfold newest
  rw [versions_remaining_eq_nil fun j e he => (hk.trans_le (hle j e he)).ne']
  rfl

theorem exists_of_newest_remaining {m : Merged κ} {k : κ} {v : Value}
    (h : newest m.remaining k = some v) : ∃ j, ∃ e ∈ m.pending j, e.1 = k := by
  obtain ⟨source, hsource, e, he, hk⟩ := exists_of_newest h
  obtain ⟨j, -, rfl⟩ := List.mem_map.1 hsource
  exact ⟨j, e, he, hk⟩

/-- One round of `next`: the least key left and its newest version are taken, and what is left is
the rest. -/
theorem Inv.round {m : Merged κ} (hinv : m.Inv) {h : Lex (κ × Nat)} {v : Value}
    {heads : SortedMap (Lex (κ × Nat)) Value} (hm : m.heads = (h, v) :: heads) :
    let m₁ := advance ⟨m.sources, heads⟩ (ofLex h).2
    let r := Merged.absorb (ofLex h).1 m₁.size m₁ v
    r.1.Inv ∧ r.1.sources.length = m.sources.length ∧ r.1.size < m.size ∧
      newest m.remaining (ofLex h).1 = some r.2 ∧
      (∀ k, newest r.1.remaining k = if k = (ofLex h).1 then none else newest m.remaining k) ∧
      ∀ j, ∀ e ∈ m.pending j, (ofLex h).1 ≤ e.1 := by
  intro m₁ r
  obtain ⟨hinv₁, hlen₁, hsize₁, hself, hother⟩ := hinv.pop hm
  have hle : ∀ j, ∀ e ∈ m.pending j, (ofLex h).1 ≤ e.1 := fun j e he => hinv.key_le hm he
  have hle₁ : ∀ j, ∀ e ∈ m₁.pending j, (ofLex h).1 ≤ e.1 := by
    intro j e he
    by_cases hj : j = (ofLex h).2
    · subst hj
      exact hle _ e (hself ▸ List.mem_cons_of_mem _ he)
    · exact hle j e (hother j hj ▸ he)
  obtain ⟨hinv', hlen', hsize', hval, hpend⟩ := hinv₁.absorb_spec v hle₁ le_rfl
  -- what is left after the round is what was left, without the records of the key taken
  have hrem : r.1.remaining = m.remaining.map (·.filter (·.1 ≠ (ofLex h).1)) := by
    rw [remaining, remaining, List.map_map, hlen', hlen₁]
    refine List.map_congr_left fun j _ => ?_
    rw [hpend j, Function.comp_apply]
    by_cases hj : j = (ofLex h).2
    · subst hj
      rw [hself, List.filter_cons_of_neg (by simp)]
    · rw [hother j hj]
  have hlt : r.1.size < m.size :=
    lt_of_le_of_lt hsize' (Nat.lt_of_lt_of_eq (Nat.lt_succ_self _) hsize₁)
  refine ⟨hinv', hlen'.trans hlen₁, hlt, ?_, fun k => ?_, hle⟩
  · rw [newest_eq_foldl (hinv.versions_pop hm), ← hval]
  · rw [hrem, newest_map_filter]

/-! ## The iteration -/

/-- `next` yields the least key left whose newest version is live, with that version, having taken
every key below it; it yields nothing when no key left is live. -/
theorem Inv.next_spec : ∀ {fuel : Nat} {m : Merged κ}, m.Inv → m.size < fuel →
    (Merged.next fuel m = none → ∀ k v, newest m.remaining k = some v → v.val = none) ∧
    ∀ k v m', Merged.next fuel m = some ((k, v), m') →
      m'.Inv ∧ m'.sources.length = m.sources.length ∧ m'.size < m.size ∧
      newest m.remaining k = some v ∧ v.val.isSome ∧
      (∀ k' v', k' < k → newest m.remaining k' = some v' → v'.val = none) ∧
      ∀ k', newest m'.remaining k' = if k' ≤ k then none else newest m.remaining k'
  | 0, _, _, hfuel => absurd hfuel (Nat.not_lt_zero _)
  | fuel + 1, m, hinv, hfuel => by
    cases hm : m.heads with
    | nil =>
      -- nothing is left
      have hnone : ∀ k, newest m.remaining k = none := fun k => by
        unfold newest
        rw [versions_remaining_eq_nil fun j e he => by
          rw [hinv.pending_of_heads_nil hm j] at he
          cases he]
        rfl
      have hnext : Merged.next (fuel + 1) m = none := by
        rw [Merged.next, hm]
      refine ⟨fun _ k v h => ?_, fun k v m' h => ?_⟩
      · rw [hnone k] at h
        cases h
      · rw [hnext] at h
        cases h
    | cons e heads =>
      obtain ⟨h, v⟩ := e
      obtain ⟨hinv', hlen', hsize', hval, hrest, hle⟩ := hinv.round hm
      have hnext : Merged.next (fuel + 1) m =
          let m₁ := advance ⟨m.sources, heads⟩ (ofLex h).2
          let r := Merged.absorb (ofLex h).1 m₁.size m₁ v
          if r.2.val.isSome then some (((ofLex h).1, r.2), r.1) else Merged.next fuel r.1 := by
        rw [Merged.next, hm]
      rw [hnext]
      dsimp only
      split_ifs with hlive
      · -- the least key's newest version is live, and the round yields it
        refine ⟨nofun, fun k v' m' hs => ?_⟩
        obtain ⟨⟨rfl, rfl⟩, rfl⟩ := Prod.mk.inj (Option.some.inj hs)
        refine ⟨hinv', hlen', hsize', hval, hlive, fun k' v' hk' h' => ?_, fun k' => ?_⟩
        · rw [newest_eq_none_of_lt hle hk'] at h'
          cases h'
        · rw [hrest k']
          by_cases hlt : k' < (ofLex h).1
          · rw [if_neg hlt.ne, if_pos hlt.le, newest_eq_none_of_lt hle hlt]
          · by_cases heq : k' = (ofLex h).1
            · rw [if_pos heq, if_pos heq.le]
            · rw [if_neg heq, if_neg (by order)]
      · -- a deletion: the round yields nothing, and `next` goes on from what is left
        have hdel : ∀ v', newest m.remaining (ofLex h).1 = some v' → v'.val = none := by
          intro v' h'
          rw [hval, Option.some.injEq] at h'
          subst h'
          simpa using hlive
        obtain ⟨hnone, hsome⟩ := @Inv.next_spec fuel _ hinv' (by omega)
        refine ⟨fun hn k v' h' => ?_, fun k v' m' hs => ?_⟩
        · by_cases hk : k = (ofLex h).1
          · exact hdel v' (hk ▸ h')
          · exact hnone hn k v' (by rw [hrest k, if_neg hk]; exact h')
        · obtain ⟨hinv'', hlen'', hsize'', hval'', hlive'', hbelow, hrest''⟩ :=
            hsome k v' m' hs
          -- the key yielded is past the one of this round
          have hne : k ≠ (ofLex h).1 := by
            intro hk
            rw [hrest k, if_pos hk] at hval''
            cases hval''
          have hval' : newest m.remaining k = some v' := by
            rw [hrest k, if_neg hne] at hval''
            exact hval''
          have hk : (ofLex h).1 < k := by
            obtain ⟨j, e, he, rfl⟩ := exists_of_newest_remaining hval'
            exact lt_of_le_of_ne (hle j e he) (Ne.symm hne)
          refine ⟨hinv'', hlen''.trans hlen', hsize''.trans hsize', hval', hlive'', ?_,
            fun k' => ?_⟩
          · intro k' v'' hk' h'
            by_cases hk0 : k' = (ofLex h).1
            · exact hdel v'' (hk0 ▸ h')
            · exact hbelow k' v'' hk' (by rw [hrest k', if_neg hk0]; exact h')
          · rw [hrest'' k', hrest k']
            split_ifs with hle' heq
            · rfl
            · subst heq
              exact absurd hk.le hle'
            · rfl

/-- The records the iterator yields from a state: in increasing key order, the live newest
versions of the keys left. -/
theorem Inv.toList_spec : ∀ {fuel : Nat} {m : Merged κ}, m.Inv → m.size < fuel →
    (Merged.toList fuel m).Pairwise (fun a b => a.1 < b.1) ∧
      ∀ k v, (k, v) ∈ Merged.toList fuel m ↔ newest m.remaining k = some v ∧ v.val.isSome
  | 0, _, _, hfuel => absurd hfuel (Nat.not_lt_zero _)
  | fuel + 1, m, hinv, hfuel => by
    obtain ⟨hnone, hsome⟩ := hinv.next_spec (Nat.lt_succ_self m.size)
    rw [Merged.toList]
    split
    · rename_i e m' hnext
      obtain ⟨k, v⟩ := e
      obtain ⟨hinv', -, hsize', hval, hlive, hbelow, hrest⟩ := hsome k v m' hnext
      obtain ⟨hpair, hmem⟩ := @Inv.toList_spec fuel _ hinv' (by omega)
      refine ⟨List.pairwise_cons.2 ⟨fun e he => ?_, hpair⟩, fun k' v' => ?_⟩
      · -- every later key is past this one
        have he' := (hmem e.1 e.2).1 he
        rw [hrest e.1] at he'
        split_ifs at he' with hle
        · exact absurd he'.1 (by simp)
        · exact lt_of_not_ge hle
      · rw [List.mem_cons, hmem k', hrest k', Prod.mk.injEq]
        by_cases hlt : k' < k
        · -- keys below this one have no live newest version
          rw [if_pos hlt.le]
          constructor
          · rintro (⟨rfl, -⟩ | ⟨h, -⟩)
            · exact absurd hlt (lt_irrefl _)
            · cases h
          · rintro ⟨h, hv⟩
            rw [hbelow k' v' hlt h] at hv
            cases hv
        · by_cases heq : k' = k
          · subst heq
            rw [if_pos le_rfl]
            constructor
            · rintro (⟨-, rfl⟩ | ⟨h, -⟩)
              · exact ⟨hval, hlive⟩
              · cases h
            · rintro ⟨h, -⟩
              exact .inl ⟨rfl, (Option.some.inj (hval.symm.trans h)).symm⟩
          · rw [if_neg (by order)]
            constructor
            · rintro (⟨h, -⟩ | h)
              · exact absurd h heq
              · exact h
            · exact .inr
    · rename_i hnext
      refine ⟨List.Pairwise.nil, fun k v => ⟨nofun, fun ⟨h, hv⟩ => ?_⟩⟩
      rw [hnone hnext k v h] at hv
      cases hv

/-- The merge starts from the sources themselves. -/
theorem remaining_new {sources : List (List (κ × Value))}
    (hsorted : ∀ source ∈ sources, source.Pairwise fun a b => a.1 < b.1) :
    (Merged.new sources).remaining = sources := by
  obtain ⟨-, hlen, hpend⟩ := Inv.new hsorted
  refine List.ext_getElem (by simp [remaining, hlen]) fun i hi hi' => ?_
  simp only [remaining, List.getElem_map, List.getElem_range, hpend, List.getD_eq_getElem?_getD,
    List.getElem?_eq_getElem hi', Option.getD_some]

end Merged

/-- Two sources in which a later deletion hides an older live version of key 1. -/
def tombstoneSources : List (List (Nat × Value)) :=
  [[(1, ⟨1, some [5]⟩), (2, ⟨1, some [6]⟩)], [(1, ⟨2, none⟩), (3, ⟨1, some [7]⟩)]]

end Kvstore

end Morgan
