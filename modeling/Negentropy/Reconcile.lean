import Negentropy.Split

/-! A reply of `Party` is a reply in the sense of range-based reconciliation: the loop only
splits, answers, reports and cuts off as that relation allows. -/

namespace NE

open Sorted

/-- The end of the item space, where every message ends. -/
def top : Item := Bound.infinity.item

/-- Its beginning. -/
def bot : Item := Bound.zero.item

namespace Party

/-! ### Sizes -/

theorem rangesSize_fingerprints {φ : Type} {n : ℕ} {last : UInt64} {rs : List (Range φ)} (hn : rs.length ≤ n)
    (h : ∀ r ∈ rs, r.payload.size ≤ 17) : rangesSize last rs ≤ 60 * n := by
  induction rs generalizing last n with
  | nil => simp [rangesSize]
  | cons r rs ih =>
    have h1 := boundBytes_length last r.bound
    have h2 := h r List.mem_cons_self
    cases n with
    | zero => simp at hn
    | succ n =>
      have h3 : rangesSize r.bound.item.timestamp rs ≤ 60 * n :=
        ih (by simpa using hn) fun r hr => h r (List.mem_cons_of_mem _ hr)
      simp only [rangesSize]
      omega

theorem splitBuckets_fingerprints (P : Party) (upper : ℕ) (upperBound : Bound) (itemsPerBucket bucketsWithExtra : ℕ) :
    ∀ remaining curr,
      (P.splitBuckets upper upperBound itemsPerBucket bucketsWithExtra remaining curr).length = remaining ∧
        ∀ r ∈ P.splitBuckets upper upperBound itemsPerBucket bucketsWithExtra remaining curr, r.payload.size ≤ 17 := by
  intro remaining
  induction remaining with
  | zero => intro curr; simp [splitBuckets]
  | succ remaining ih =>
    intro curr
    simp only [splitBuckets, List.length_cons, List.mem_cons, forall_eq_or_imp]
    obtain ⟨h1, h2⟩ := ih (curr + (itemsPerBucket + if Negentropy.buckets - (remaining + 1) < bucketsWithExtra then 1 else 0))
    exact ⟨by rw [h1], le_rfl, h2⟩

/-- A split range takes little room: 16 fingerprints or 31 ids. -/
theorem splitRange_size (P : Party) (lower upper : ℕ) (upperBound : Bound) (last : UInt64) :
    rangesSize last (P.splitRange lower upper upperBound) ≤ 1046 := by
  by_cases hn : upper - lower < Negentropy.buckets * 2
  · have h1 := boundBytes_length last upperBound
    have h2 := encodeVarInt_length (UInt64.ofNat ((slice P.items lower upper).map Item.id).length)
    have h3 : ((slice P.items lower upper).map Item.id).length ≤ 31 := by
      have hb : Negentropy.buckets * 2 = 32 := rfl
      simp only [slice, List.length_map, List.length_take]
      omega
    have h4 : ID_SIZE = 32 := rfl
    simp only [splitRange, if_pos hn, rangesSize, Payload.size, h4]
    omega
  · simp only [splitRange, if_neg hn]
    obtain ⟨h1, h2⟩ := P.splitBuckets_fingerprints upper upperBound ((upper - lower) / Negentropy.buckets)
      ((upper - lower) % Negentropy.buckets) Negentropy.buckets lower
    exact (rangesSize_fingerprints (n := 16) h1.le h2).trans (by decide)

theorem flush_size {φ : Type} (st : Answer φ) (last : UInt64) : rangesSize last st.flush ≤ 44 := by
  unfold Answer.flush
  split
  · have := boundBytes_length last st.prevBound
    simp only [rangesSize, Payload.size]
    omega
  · exact Nat.zero_le _

/-! ### The loop -/

section
variable {φ : Type} {P : Party}

/-- What holds of the state at the start of an iteration. -/
structure Ready (P : Party) (st : Answer φ) : Prop where
  prevIndex : st.prevIndex = lowerBound P.items st.prevBound.item
  written : st.skip = false → Rbsr.endOf bot (abstract P.elems st.out) = st.prevBound.item
  fits : P.exceeded (messageSize st.out) = false

theorem exceeded_one (hlimit : P.frameSizeLimit = 0 ∨ 4096 ≤ P.frameSizeLimit) {n : ℕ} (hn : n ≤ 3896) :
    P.exceeded n = false := by
  rcases hlimit with h | h
  · simp [exceeded, h]
  · have : ¬ n > P.frameSizeLimit - 200 := by omega
    simp [exceeded, this]

theorem ready_initial (hlimit : P.frameSizeLimit = 0 ∨ 4096 ≤ P.frameSizeLimit)
    (hsorted : P.items.Pairwise (· < ·)) : P.Ready ({} : Answer φ) where
  prevIndex := (lowerBound_eq_zero hsorted fun x _ => Bound.zero_le x).symm
  written _ := rfl
  fits := exceeded_one hlimit (show 1 ≤ 3896 by decide)

theorem Ready.flush {st : Answer φ} (h : P.Ready st) :
    Rbsr.Flush (Rbsr.endOf bot (abstract P.elems st.out)) st.prevBound.item (abstract P.elems st.flush) := by
  cases hskip : st.skip with
  | false =>
    rw [h.written hskip, Answer.flush, hskip]
    exact .none
  | true =>
    rw [Answer.flush, hskip]
    exact .skip

/-- A comparison that was recorded, with the items the fingerprints were over. -/
def comparison (P : Party) (elems : φ → List Item) (x : φ × Window × Bool) : Rbsr.Comparison Item :=
  ⟨elems x.1, P.elems x.2.1, x.2.2⟩

/-- The items a received range is about. -/
def elemsOf (elems : φ → List Item) (r : Range φ) : List Item :=
  match r.payload with
  | .fingerprint f => elems f
  | _ => []

/-- A dropped split: where what was written ended, and the range that was to be split. -/
def drop (P : Party) (elems : φ → List Item) (x : Answer φ × Range φ) : Rbsr.Drop Item :=
  ⟨Rbsr.endOf bot (abstract P.elems x.1.out), x.2.bound.item, elemsOf elems x.2⟩

/-- `st'` is `st` with the given additions. -/
structure Adds (P : Party) (elems : φ → List Item) (st st' : Answer φ) (out : List (Range Window))
    (hs ns : List ItemId) (c : List (Rbsr.Comparison Item)) : Prop where
  out : st'.out = st.out ++ out
  haveIds : st'.haveIds = st.haveIds ++ hs
  needIds : st'.needIds = st.needIds ++ ns
  compared : st'.compared.map (P.comparison elems) = st.compared.map (P.comparison elems) ++ c

/-- The reply relation from a state of the loop on. -/
def Replies (P : Party) (elems : φ → List Item) (st : Answer φ) (q : List (Range φ)) (st' : Answer φ)
    (d : Option (Answer φ × Range φ)) : Prop :=
  ∃ out hs ns c, P.Adds elems st st' out hs ns c ∧
    Rbsr.Reply P.items Item.id top compare (P.isInitiator = true) (P.frameSizeLimit ≠ 0) (st.out ≠ [])
      (Rbsr.endOf bot (abstract P.elems st.out)) st.prevBound.item (abstract elems q) (abstract P.elems out) hs ns c
      (d.map (P.drop elems))

theorem abstract_cons (elems : φ → List Item) (r : Range φ) (rs : List (Range φ)) :
    abstract elems (r :: rs) = ⟨r.bound.item, r.payload.abstract elems⟩ :: abstract elems rs := rfl

theorem limited_of_exceeded {n : ℕ} (h : P.exceeded n = true) : P.frameSizeLimit ≠ 0 := by
  simp only [exceeded, Bool.and_eq_true, bne_iff_ne] at h
  exact h.1

/-- Nothing new is written, so that the limit is not exceeded. -/
theorem Ready.finishRange_nil {st : Answer φ} (h : P.Ready st) (currBound : Bound) (upper : ℕ)
    (f : Answer φ → Answer φ) (hf : (f st).out = st.out) :
    P.finishRange currBound upper [] (f st) = ({ f st with prevIndex := upper, prevBound := currBound }, false) := by
  rw [finishRange, List.append_nil, hf, h.fits]
  simp [hf]

/-- The fingerprint that ends a cut message is over the items from a bound on. -/
theorem over_remaining (hsorted : P.items.Pairwise (· < ·)) (htop : ∀ x ∈ P.items, x < top) (u : Item) :
    P.elems ⟨lowerBound P.items u, P.items.length⟩ = within P.items u top := by
  have hlen : lowerBound P.items top = P.items.length := lowerBound_eq_length hsorted htop
  rcases le_total u top with hle | hle
  · rw [← slice_lowerBound hsorted hle, hlen]
    rfl
  · have hu : lowerBound P.items u = P.items.length :=
      lowerBound_eq_length hsorted fun x hx => (htop x hx).trans_le hle
    rw [within_empty hle, hu]
    exact slice_self _ _

theorem lowerBound_item (hsorted : P.items.Pairwise (· < ·)) {i : ℕ} (hi : i < P.items.length) :
    lowerBound P.items (P.item i) = i := by
  refine le_antisymm ((lowerBound_le_item_iff hsorted hi).mpr le_rfl) ?_
  by_contra hlt
  have hle : lowerBound P.items (P.item i) ≤ i - 1 := by omega
  exact absurd (item_lt hsorted (show i - 1 < i by omega) hi)
    (not_lt_of_ge ((lowerBound_le_item_iff hsorted (by omega)).mp hle))

/-- Where a list of ids ends: at the bound it was asked for, or later than it starts. -/
theorem endBound_between (hsorted : P.items.Pairwise (· < ·)) {st : Answer φ} (hst : P.Ready st) {bound : Bound}
    (hle : st.prevBound.item ≤ bound.item) :
    let stop := P.answerEnd (lowerBound P.items bound.item) st
    lowerBound P.items (P.endBound bound stop).item = stop ∧
      st.prevBound.item ≤ (P.endBound bound stop).item ∧ (P.endBound bound stop).item ≤ bound.item ∧
      ((P.endBound bound stop).item = bound.item ∨
        within P.items st.prevBound.item (P.endBound bound stop).item ≠ []) := by
  have hl : st.prevIndex ≤ lowerBound P.items bound.item := hst.prevIndex ▸ lowerBound_mono hsorted hle
  have hu : lowerBound P.items bound.item ≤ P.items.length := lowerBound_le_length _ _
  have hk := P.sentIds_le (messageSize st.out) (lowerBound P.items bound.item - st.prevIndex) 0
  simp only [answerEnd]
  set k := P.sentIds (messageSize st.out) 0 (lowerBound P.items bound.item - st.prevIndex) with hkdef
  by_cases hcut : st.prevIndex + k < lowerBound P.items bound.item
  · have hpos : 0 < k := by
      obtain ⟨n, hn⟩ : ∃ n, lowerBound P.items bound.item - st.prevIndex = n + 1 :=
        ⟨lowerBound P.items bound.item - st.prevIndex - 1, by omega⟩
      have hnot : ¬ P.exceeded (messageSize st.out + ID_SIZE * 0) = true := by
        rw [Nat.mul_zero, Nat.add_zero, hst.fits]
        exact Bool.false_ne_true
      rw [hkdef, hn, sentIds, if_neg hnot]
      have := P.sentIds_le (messageSize st.out) n (0 + 1)
      omega
    have hitem : (P.endBound bound (st.prevIndex + k)).item = P.item (st.prevIndex + k) := by
      rw [endBound, if_pos hcut]
      rfl
    have hlow : ∀ i, st.prevIndex ≤ i → i < P.items.length → st.prevBound.item ≤ P.item i := fun i hi hlen =>
      (lowerBound_le_item_iff hsorted hlen).mp (hst.prevIndex ▸ hi)
    rw [hitem]
    refine ⟨lowerBound_item hsorted (by omega), hlow _ (by omega) (by omega), ?_, .inr ?_⟩
    · by_contra hgt
      have := (lowerBound_le_item_iff hsorted (show st.prevIndex + k < P.items.length by omega)).mpr
        (not_le.mp hgt).le
      omega
    · refine List.ne_nil_of_mem (a := P.item st.prevIndex) (mem_within.mpr ⟨?_, hlow _ le_rfl (by omega), ?_⟩)
      · rw [item, List.getD_eq_getElem?_getD, List.getElem?_eq_getElem (by omega), Option.getD_some]
        exact List.getElem_mem _
      · exact item_lt hsorted (by omega) (by omega)
  · have heq : P.endBound bound (st.prevIndex + k) = bound := if_neg hcut
    rw [heq]
    exact ⟨by omega, hle, le_rfl, .inl rfl⟩

/-- An iteration that writes nothing. -/
theorem Replies.next {elems : φ → List Item} {same : φ → Window → Bool} {st st' : Answer φ} {r : Range φ}
    {q : List (Range φ)} (hans : P.answer same st r = (st', false)) (hdrop : P.dropsSplit same st r = false)
    (h : P.Replies elems st' q (P.answers same q st') (P.dropped same q st')) :
    P.Replies elems st' q (P.answers same (r :: q) st) (P.dropped same (r :: q) st) := by
  rw [answers, dropped, hans, hdrop]
  exact h

section
variable (hlimit : P.frameSizeLimit = 0 ∨ 4096 ≤ P.frameSizeLimit) (hsorted : P.items.Pairwise (· < ·))
  (htop : ∀ x ∈ P.items, x < top) {elems : φ → List Item} {same : φ → Window → Bool} {q : List (Range φ)}
  (ih : ∀ st : Answer φ, P.Ready st → Rbsr.Ascending st.prevBound.item (abstract elems q) →
    P.Replies elems st q (P.answers same q st) (P.dropped same q st))
  {st : Answer φ} (hst : P.Ready st) {bound : Bound}
include hlimit hsorted htop ih hst

/-- A fingerprint that differs is split, or the split is dropped and the message cut. -/
theorem answers_split {f : φ} (hq : Rbsr.Ascending st.prevBound.item (abstract elems (⟨bound, .fingerprint f⟩ :: q)))
    (hsame : same f ⟨st.prevIndex, lowerBound P.items bound.item⟩ = false) :
    P.Replies elems st (⟨bound, .fingerprint f⟩ :: q) (P.answers same (⟨bound, .fingerprint f⟩ :: q) st)
      (P.dropped same (⟨bound, .fingerprint f⟩ :: q) st) := by
  obtain ⟨hle, hq⟩ := hq
  simp only at hle hq
  have hwithin : P.elems ⟨st.prevIndex, lowerBound P.items bound.item⟩ =
      within P.items st.prevBound.item bound.item := by
    rw [← slice_lowerBound hsorted hle, ← hst.prevIndex]
    rfl
  have hsplit := splitRange_split hsorted hle
  rw [← hst.prevIndex] at hsplit
  set split := P.splitRange st.prevIndex (lowerBound P.items bound.item) bound with hdef
  cases hex : P.exceeded (messageSize (st.out ++ (st.flush ++ split))) with
  | true =>
    have hstarted : st.out ≠ [] := by
      intro hnil
      have h1 := flush_size st 0
      have h2 := P.splitRange_size st.prevIndex (lowerBound P.items bound.item) bound (lastTimestamp 0 st.flush)
      rw [← hdef] at h2
      rw [exceeded_one hlimit] at hex
      · cases hex
      · rw [hnil, List.nil_append, messageSize, rangesSize_append]
        omega
    have hdrop : P.dropsSplit same st ⟨bound, .fingerprint f⟩ = true := by
      simp only [dropsSplit, hsame, ← hdef, hex]
      rfl
    have hans : P.answer same st ⟨bound, .fingerprint f⟩ =
        ({ st with
          skip := false
          compared := st.compared ++ [(f, ⟨st.prevIndex, lowerBound P.items bound.item⟩, false)]
          out := st.out ++ [P.remaining (lowerBound P.items bound.item)] }, true) := by
      rw [answer_different hsame, finishRange, ← hdef, hex]
      rfl
    refine ⟨[P.remaining (lowerBound P.items bound.item)], [], [],
      [⟨elems f, within P.items st.prevBound.item bound.item, false⟩], ⟨?_, ?_, ?_, ?_⟩, ?_⟩
    · rw [answers, hans]
    · rw [answers, hans, List.append_nil]
    · rw [answers, hans, List.append_nil]
    · rw [answers, hans, List.map_append, ← hwithin]
      rfl
    · rw [dropped, hdrop]
      have hrem : abstract P.elems [P.remaining (lowerBound P.items bound.item)] =
          [⟨top, .fingerprint (within P.items bound.item top)⟩] := by
        rw [← over_remaining hsorted htop]
        rfl
      rw [hrem]
      exact .cutSplit (limited_of_exceeded hex) hstarted
  | false =>
    have hdrop : P.dropsSplit same st ⟨bound, .fingerprint f⟩ = false := by
      simp only [dropsSplit, hsame, ← hdef, hex]
      rfl
    have hans := (answer_different (P := P) hsame).trans (if_neg (by rw [← hdef, hex]; exact Bool.false_ne_true))
    have hend : Rbsr.endOf bot (abstract P.elems (st.out ++ (st.flush ++ split))) = bound.item := by
      rw [abstract_append, Rbsr.endOf_append, abstract_append, Rbsr.endOf_append, hst.flush.endOf_eq, hsplit.endOf_eq]
    obtain ⟨out, hs, ns, c, hadd, hrep⟩ := Replies.next hans hdrop (ih _
      ⟨rfl, fun _ => hend, hex⟩ hq)
    refine ⟨st.flush ++ (split ++ out), hs, ns, ⟨elems f, within P.items st.prevBound.item bound.item, false⟩ :: c,
      ⟨?_, hadd.haveIds, hadd.needIds, ?_⟩, ?_⟩
    · rw [hadd.out, ← hdef, List.append_assoc, List.append_assoc]
    · rw [hadd.compared, List.map_append, List.append_assoc, ← hwithin]
      rfl
    · have hstarted : st.out ++ (st.flush ++ split) ≠ [] := by
        intro hnil
        have hnil' : split = [] := (List.append_eq_nil_iff.mp (List.append_eq_nil_iff.mp hnil).2).2
        rw [hnil'] at hsplit
        cases hsplit with
        | buckets h => cases h
      simp only [← hdef, hend, eq_true hstarted] at hrep
      rw [abstract_append, abstract_append]
      exact .split hst.flush hsplit hrep

omit hlimit in
/-- The party that did not initiate sends its ids, perhaps not all before the message is cut. -/
theorem answers_ids (hinit : P.isInitiator = false) {ids : List ItemId}
    (hq : Rbsr.Ascending st.prevBound.item (abstract elems (⟨bound, .idList ids⟩ :: q))) :
    P.Replies elems st (⟨bound, .idList ids⟩ :: q) (P.answers same (⟨bound, .idList ids⟩ :: q) st)
      (P.dropped same (⟨bound, .idList ids⟩ :: q) st) := by
  obtain ⟨hle, hq⟩ := hq
  simp only at hle hq
  have hl : st.prevIndex ≤ lowerBound P.items bound.item := hst.prevIndex ▸ lowerBound_mono hsorted hle
  have hu : lowerBound P.items bound.item ≤ P.items.length := lowerBound_le_length _ _
  have hclient : ¬ P.isInitiator = true := by rw [hinit]; exact Bool.false_ne_true
  have hk := P.sentIds_le (messageSize st.out) (lowerBound P.items bound.item - st.prevIndex) 0
  have hans := answer_idList same st bound ids hinit rfl
  obtain ⟨hend, hlv, hvu, hne⟩ := endBound_between hsorted hst hle
  set stop := P.answerEnd (lowerBound P.items bound.item) st with hstop
  have hids : (slice P.items st.prevIndex stop).map Item.id =
      (within P.items st.prevBound.item (P.endBound bound stop).item).map Item.id := by
    rw [← slice_lowerBound hsorted hlv, hend, ← hst.prevIndex]
  have hdrop : P.dropsSplit same st ⟨bound, .idList ids⟩ = false := rfl
  set out := st.flush ++ [⟨P.endBound bound stop, .idList ((slice P.items st.prevIndex stop).map Item.id)⟩] with hout
  have habs : abstract P.elems out = abstract P.elems st.flush ++ [⟨(P.endBound bound stop).item,
      .idList ((within P.items st.prevBound.item (P.endBound bound stop).item).map Item.id)⟩] := by
    rw [hout, abstract_append, hids]
    rfl
  rw [List.append_assoc, ← hout] at hans
  cases hex : P.exceeded (messageSize (st.out ++ out)) with
  | true =>
    have hans' : P.answer same st ⟨bound, .idList ids⟩ =
        ({ st with skip := false, out := (st.out ++ out) ++ [P.remaining stop] }, true) := by
      rw [hans, finishRange, List.append_nil]
      exact if_pos hex
    refine ⟨out ++ [P.remaining stop], [], [], [], ⟨?_, ?_, ?_, ?_⟩, ?_⟩
    · rw [answers, hans', List.append_assoc]
    · rw [answers, hans', List.append_nil]
    · rw [answers, hans', List.append_nil]
    · rw [answers, hans', List.append_nil]
    · have hrem : abstract P.elems [P.remaining stop] =
          [⟨top, .fingerprint (within P.items (P.endBound bound stop).item top)⟩] := by
        rw [← over_remaining hsorted htop, hend]
        rfl
      rw [dropped, hdrop, hans', abstract_append, habs, hrem, List.append_assoc]
      exact .cutAnswer hclient (limited_of_exceeded hex) hst.flush hlv hvu hne
  | false =>
    have hans' : P.answer same st ⟨bound, .idList ids⟩ =
        ({ st with skip := false, out := st.out ++ out, prevIndex := stop, prevBound := bound }, false) := by
      rw [hans, finishRange, List.append_nil]
      exact if_neg (by rw [hex]; exact Bool.false_ne_true)
    obtain ⟨-, hindex⟩ := answer_continues hl hans'
    simp only at hindex
    have hbound : P.endBound bound stop = bound := if_neg (by omega)
    have hlast : Rbsr.endOf bot (abstract P.elems (st.out ++ out)) = bound.item := by
      rw [abstract_append, habs, hbound, Rbsr.endOf_append, Rbsr.endOf_append, hst.flush.endOf_eq]
      rfl
    obtain ⟨out', hs, ns, c, hadd, hrep⟩ := Replies.next hans' hdrop (ih _
      ⟨hindex, fun _ => hlast, hex⟩ hq)
    refine ⟨out ++ out', hs, ns, c, ⟨?_, hadd.haveIds, hadd.needIds, hadd.compared⟩, ?_⟩
    · rw [hadd.out, List.append_assoc]
    · have hstarted : st.out ++ out ≠ [] := by simp [hout]
      simp only [hlast, eq_true hstarted] at hrep
      rw [abstract_append, habs, hbound, List.append_assoc]
      exact .answer hclient hst.flush hrep

end

theorem answers_reply (hlimit : P.frameSizeLimit = 0 ∨ 4096 ≤ P.frameSizeLimit)
    (hsorted : P.items.Pairwise (· < ·)) (htop : ∀ x ∈ P.items, x < top)
    (elems : φ → List Item) (same : φ → Window → Bool) :
    ∀ (q : List (Range φ)) (st : Answer φ), P.Ready st → Rbsr.Ascending st.prevBound.item (abstract elems q) →
      P.Replies elems st q (P.answers same q st) (P.dropped same q st) := by
  intro q
  induction q with
  | nil =>
    intro st _ _
    exact ⟨[], [], [], [], ⟨(List.append_nil _).symm, (List.append_nil _).symm, (List.append_nil _).symm,
      (List.append_nil _).symm⟩, .done⟩
  | cons r q ih =>
    intro st hst hq
    obtain ⟨bound, payload⟩ := r
    have hle : st.prevBound.item ≤ bound.item := hq.1
    have hwithin : P.elems ⟨st.prevIndex, lowerBound P.items bound.item⟩ =
        within P.items st.prevBound.item bound.item := by
      rw [← slice_lowerBound hsorted hle, ← hst.prevIndex]
      rfl
    cases payload with
    | skip =>
      have hans : P.answer same st ⟨bound, .skip⟩ =
          ({ st with skip := true, prevIndex := lowerBound P.items bound.item, prevBound := bound }, false) :=
        hst.finishRange_nil bound _ (fun st => { st with skip := true }) rfl
      obtain ⟨out, hs, ns, c, hadd, hrep⟩ := Replies.next hans rfl (ih
        { st with skip := true, prevIndex := lowerBound P.items bound.item, prevBound := bound }
        ⟨rfl, fun h => (by cases h), hst.fits⟩ hq.2)
      exact ⟨out, hs, ns, c, ⟨hadd.out, hadd.haveIds, hadd.needIds, hadd.compared⟩, .skip hrep⟩
    | fingerprint f =>
      cases hsame : same f ⟨st.prevIndex, lowerBound P.items bound.item⟩ with
      | true =>
        have hans := (answer_same hsame).trans (hst.finishRange_nil bound _
          (fun st => { st with
            skip := true
            compared := st.compared ++ [(f, ⟨st.prevIndex, lowerBound P.items bound.item⟩, true)] }) rfl)
        have hdrop : P.dropsSplit same st ⟨bound, .fingerprint f⟩ = false := by simp [dropsSplit, hsame]
        obtain ⟨out, hs, ns, c, hadd, hrep⟩ := Replies.next hans hdrop (ih _
          ⟨rfl, fun h => (by cases h), hst.fits⟩ hq.2)
        refine ⟨out, hs, ns, ⟨elems f, within P.items st.prevBound.item bound.item, true⟩ :: c,
          ⟨hadd.out, hadd.haveIds, hadd.needIds, ?_⟩, .agree hrep⟩
        rw [hadd.compared, List.map_append, List.append_assoc, ← hwithin]
        rfl
      | false => exact answers_split hlimit hsorted htop ih hst hq hsame
    | idList ids =>
      cases hinit : P.isInitiator with
      | true =>
        have hans := (answer_report same st bound ids hinit).trans
          (hst.finishRange_nil bound _ (fun st => { st with
            skip := true
            haveIds := st.haveIds ++ (compare ids (slice P.items st.prevIndex (lowerBound P.items bound.item))).1
            needIds := st.needIds ++
              (compare ids (slice P.items st.prevIndex (lowerBound P.items bound.item))).2 }) rfl)
        obtain ⟨out, hs, ns, c, hadd, hrep⟩ := Replies.next hans rfl (ih _
          ⟨rfl, fun h => (by cases h), hst.fits⟩ hq.2)
        refine ⟨out, _, _, c, ⟨hadd.out, ?_, ?_, hadd.compared⟩, .report hinit rfl hrep⟩
        · rw [hadd.haveIds, List.append_assoc, ← hwithin]
          rfl
        · rw [hadd.needIds, List.append_assoc, ← hwithin]
          rfl
      | false => exact answers_ids hsorted htop ih hst hinit hq

end

end Party

end NE
