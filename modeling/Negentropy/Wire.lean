import Negentropy.Calls

/-! What a party sends can be encoded, and a reply to fingerprints does not depend on how
these are represented. -/

namespace NE

open Sorted

/-! ### Encoding replies -/

/-- Ranges in order have timestamps in order. -/
theorem encodable_of_ordered {φ : Type} {elems : φ → List Item} {rs : List (Range φ)} {l : Item}
    (h : Rbsr.Ordered top l (abstract elems rs)) (hfits : ∀ r ∈ rs, r.payload.Fits) : Encodable l.timestamp rs := by
  induction rs generalizing l with
  | nil => trivial
  | cons r rs ih =>
    obtain ⟨hle, hrest⟩ := h
    refine ⟨?_, hfits r List.mem_cons_self, ih hrest fun r hr => hfits r (List.mem_cons_of_mem _ hr)⟩
    rcases hle with hle | htop
    · exact Item.timestamp_le hle
    · have hmax : r.bound.item.timestamp = MAX_U64 := congrArg Item.timestamp htop
      rw [hmax, UInt64.le_iff_toNat_le]
      exact Nat.le_of_lt_succ l.timestamp.toNat_lt

theorem fits_of_short {φ : Type} {elems : φ → List Item} {rs : List (Range φ)} {n : ℕ} (hn : n < 2 ^ 64)
    (h : Rbsr.Short n (abstract elems rs)) : ∀ r ∈ rs, r.payload.Fits := by
  rintro ⟨bound, payload⟩ hr
  cases payload with
  | skip => trivial
  | fingerprint f => trivial
  | idList ids => exact (h _ (List.mem_map_of_mem hr) ids rfl).trans_lt hn

theorem Encodable.render (fp : ℕ → ℕ → Fingerprint) {last : UInt64} {rs : List (Range Window)} (h : Encodable last rs) :
    Encodable last (render fp rs) := by
  induction rs generalizing last with
  | nil => trivial
  | cons r rs ih =>
    obtain ⟨bound, payload⟩ := r
    refine ⟨h.1, ?_, ih h.2.2⟩
    cases payload with
    | skip => trivial
    | fingerprint w => trivial
    | idList ids => exact h.2.1

/-- Bounds that do not decrease ascend from the zero bound on. -/
theorem ascending_of_sorted {φ : Type} {elems : φ → List Item} {rs : List (Range φ)} {l : Item}
    (h : (l :: rs.map (·.bound.item)).Pairwise (· ≤ ·)) : Rbsr.Ascending l (abstract elems rs) := by
  induction rs generalizing l with
  | nil => trivial
  | cons r rs ih =>
    obtain ⟨hle, h⟩ := List.pairwise_cons.mp h
    exact ⟨hle _ List.mem_cons_self, ih h⟩

theorem sorted_of_ascending {φ : Type} {elems : φ → List Item} {rs : List (Range φ)} {l : Item}
    (h : Rbsr.Ascending l (abstract elems rs)) : (l :: rs.map (·.bound.item)).Pairwise (· ≤ ·) := by
  induction rs generalizing l with
  | nil => exact List.pairwise_singleton _ _
  | cons r rs ih =>
    have hle : l ≤ r.bound.item := h.1
    have hrest := ih h.2
    refine List.pairwise_cons.mpr ⟨fun x hx => ?_, hrest⟩
    rcases List.mem_cons.mp hx with rfl | hx
    · exact hle
    · exact hle.trans ((List.pairwise_cons.mp hrest).1 x hx)

theorem sorted_render (fp : ℕ → ℕ → Fingerprint) {elems : Window → List Item} {rs : List (Range Window)}
    (h : Rbsr.Ascending bot (abstract elems rs)) : Range.Sorted (render fp rs) := by
  have hmap : (render fp rs).map (·.bound.item) = rs.map (·.bound.item) := List.map_map
  rw [Range.Sorted, hmap]
  exact (List.pairwise_cons.mp (sorted_of_ascending h)).2

namespace Party

variable {φ ψ : Type} {P : Party}

/-- The reply to a message, as a reply of range-based reconciliation. -/
theorem reply_replies (hlimit : P.frameSizeLimit = 0 ∨ 4096 ≤ P.frameSizeLimit) (hsorted : P.items.Pairwise (· < ·))
    (htop : ∀ x ∈ P.items, x < top) (elems : φ → List Item) (same : φ → Window → Bool) {q : List (Range φ)}
    (hq : Rbsr.Ascending bot (abstract elems q)) :
    ∃ c, (P.reply same q).compared.map (P.comparison elems) = c ∧
      Rbsr.Reply P.items Item.id top compare (P.isInitiator = true) (P.frameSizeLimit ≠ 0) False bot bot
        (abstract elems q) (abstract P.elems (P.reply same q).out) (P.reply same q).haveIds (P.reply same q).needIds c
        ((P.dropped same q {}).map (P.drop elems)) := by
  obtain ⟨out, hs, ns, c, hadd, hrep⟩ := answers_reply hlimit hsorted htop elems same q {}
    (ready_initial hlimit hsorted) hq
  have hout : (P.reply same q).out = out := hadd.out
  have hhave : (P.reply same q).haveIds = hs := hadd.haveIds
  have hneed : (P.reply same q).needIds = ns := hadd.needIds
  have hnil : (([] : List (Range Window)) ≠ []) = False := by simp
  refine ⟨c, hadd.compared, ?_⟩
  rw [hout, hhave, hneed]
  exact hnil ▸ hrep

/-- A reply can be encoded. -/
theorem reply_encodable (hlimit : P.frameSizeLimit = 0 ∨ 4096 ≤ P.frameSizeLimit) (hsorted : P.items.Pairwise (· < ·))
    (htop : ∀ x ∈ P.items, x < top) (hlen : P.items.length < 2 ^ 64) (same : φ → Window → Bool) {q : List (Range φ)}
    (hq : (q.map (·.bound.item)).Pairwise (· ≤ ·)) : Encodable 0 (P.reply same q).out := by
  have hq' : Rbsr.Ascending bot (abstract (fun _ : φ => []) q) :=
    ascending_of_sorted (List.pairwise_cons.mpr ⟨fun x _ => Bound.zero_le x, hq⟩)
  obtain ⟨c, -, hrep⟩ := reply_replies hlimit hsorted htop (fun _ => []) same hq'
  exact encodable_of_ordered (hrep.ordered hq' le_rfl) (fits_of_short hlen hrep.short)

/-- The first message divides everything. -/
theorem initial_divide (hsorted : P.items.Pairwise (· < ·)) (htop : ∀ x ∈ P.items, x < top) :
    Rbsr.Divide P.items Item.id Negentropy.buckets 31 bot top (abstract P.elems P.initial) := by
  have h : Rbsr.Divide P.items Item.id Negentropy.buckets 31 bot top (abstract P.elems (P.splitRange (lowerBound P.items bot)
      (lowerBound P.items (Bound.ofTimestamp MAX_U64).item) (Bound.ofTimestamp MAX_U64))) :=
    splitRange_divide hsorted (Bound.zero_le _)
  have hbot : lowerBound P.items bot = 0 := lowerBound_eq_zero hsorted fun x _ => Bound.zero_le x
  have hend : lowerBound P.items (Bound.ofTimestamp MAX_U64).item = P.items.length := lowerBound_eq_length hsorted htop
  rwa [hbot, hend] at h

theorem initial_split (hsorted : P.items.Pairwise (· < ·)) (htop : ∀ x ∈ P.items, x < top) :
    Rbsr.Split P.items Item.id bot top (abstract P.elems P.initial) :=
  (initial_divide hsorted htop).split (by decide) (by decide)

theorem initial_encodable (hsorted : P.items.Pairwise (· < ·)) (htop : ∀ x ∈ P.items, x < top)
    (hlen : P.items.length < 2 ^ 64) : Encodable 0 P.initial := by
  have h := initial_split hsorted htop
  exact encodable_of_ordered (h.ordered (Bound.zero_le _)) (fits_of_short hlen h.short)

/-! ### Other representations of fingerprints -/

def Answer.map (g : φ → ψ) (st : Answer φ) : Answer ψ where
  out := st.out
  prevBound := st.prevBound
  prevIndex := st.prevIndex
  skip := st.skip
  haveIds := st.haveIds
  needIds := st.needIds
  compared := st.compared.map fun x => (g x.1, x.2)

theorem finishRange_map (g : φ → ψ) (currBound : Bound) (upper : ℕ) (o : List (Range Window)) (st : Answer φ) :
    P.finishRange currBound upper o (st.map g) =
      ((P.finishRange currBound upper o st).1.map g, (P.finishRange currBound upper o st).2) := by
  cases hex : P.exceeded (messageSize (st.out ++ o)) with
  | true => simp only [finishRange, Answer.map, hex, if_true]
  | false => simp only [finishRange, Answer.map, hex, Bool.false_eq_true, if_false]

theorem answer_map (g : φ → ψ) (same : ψ → Window → Bool) (st : Answer φ) (r : Range φ) :
    P.answer same (st.map g) (r.map g) =
      ((P.answer (fun f => same (g f)) st r).1.map g, (P.answer (fun f => same (g f)) st r).2) := by
  obtain ⟨bound, payload⟩ := r
  cases payload with
  | skip => exact finishRange_map g _ _ _ { st with skip := true }
  | fingerprint f =>
    have hmap : (⟨bound, .fingerprint f⟩ : Range φ).map g = ⟨bound, .fingerprint (g f)⟩ := rfl
    rw [hmap]
    cases hsame : same (g f) ⟨st.prevIndex, lowerBound P.items bound.item⟩ with
    | true =>
      rw [answer_same (hsame : same (g f) ⟨(st.map g).prevIndex, _⟩ = true), answer_same hsame, ← finishRange_map]
      simp only [Answer.map, List.map_append, List.map_cons, List.map_nil]
    | false =>
      rw [answer_different (hsame : same (g f) ⟨(st.map g).prevIndex, _⟩ = false), answer_different hsame, ← finishRange_map]
      simp only [Answer.map, List.map_append, List.map_cons, List.map_nil]
      rfl
  | idList ids =>
    have hmap : (⟨bound, .idList ids⟩ : Range φ).map g = ⟨bound, .idList ids⟩ := rfl
    rw [hmap]
    cases hinit : P.isInitiator with
    | true =>
      rw [answer_report _ _ _ _ hinit, answer_report _ _ _ _ hinit, ← finishRange_map]
      rfl
    | false =>
      have hstop : P.answerEnd (lowerBound P.items bound.item) (st.map g) =
          P.answerEnd (lowerBound P.items bound.item) st := rfl
      rw [answer_idList _ _ _ _ hinit hstop, answer_idList _ _ _ _ hinit rfl, ← finishRange_map]
      rfl

theorem answers_map (g : φ → ψ) (same : ψ → Window → Bool) (q : List (Range φ)) (st : Answer φ) :
    P.answers same (q.map (Range.map g)) (st.map g) = (P.answers (fun f => same (g f)) q st).map g := by
  induction q generalizing st with
  | nil => rfl
  | cons r q ih =>
    rw [List.map_cons, answers, answers, answer_map]
    cases hans : P.answer (fun f => same (g f)) st r with
    | mk st' stop =>
      cases stop with
      | true => rfl
      | false => exact ih st'

/-- The reply to fingerprints `g f` is that to `f`, compared by way of `g`. -/
theorem reply_map (g : φ → ψ) (same : ψ → Window → Bool) (q : List (Range φ)) :
    P.reply same (q.map (Range.map g)) = (P.reply (fun f => same (g f)) q).map g :=
  answers_map g same q {}

end Party

end NE
