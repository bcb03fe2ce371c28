import Negentropy.Reconcile
import Negentropy.Refine

/-! `initiate` and the two `reconcile` methods on whole messages: a message that is received
is read as ranges, and the message that is sent consists of the ranges of the party's reply. -/

namespace NE

open Sorted Stateful Negentropy

/-- A message of these ranges. -/
def message (rs : List (Range Fingerprint)) : Bytes := PROTOCOL_VERSION :: rangesBytes 0 rs

/-- The ranges of a message up to the first one that cannot be read, and the bytes that are left. -/
def readMessage : Bytes → List (Range Fingerprint) × Bytes
  | [] => ([], [])
  | version :: encoded => if version = PROTOCOL_VERSION then readRanges encoded.length 0 encoded else ([], [])

/-- The bounds do not decrease. -/
def Range.Sorted (rs : List (Range Fingerprint)) : Prop := (rs.map (·.bound.item)).Pairwise (· ≤ ·)

theorem readMessage_message {rs : List (Range Fingerprint)} (h : Encodable 0 rs) : readMessage (message rs) = (rs, []) := by
  rw [message, readMessage, if_pos rfl]
  exact readRanges_rangesBytes h le_rfl

section
variable {σ : Type} [StorageBase σ] {ne : Negentropy σ} {items : List Item} {fp : ℕ → ℕ → Fingerprint}

/-- Behind the version byte, the loop runs on the rest of the query. -/
theorem reconcileAux_version (hs : Reads ne.storage items fp) (encoded : Bytes) :
    reconcileAux (PROTOCOL_VERSION :: encoded) ne =
      (do
        let st ← reconcileLoop items.length encoded.length (({} : Party.Answer Fingerprint).state fp encoded)
        return (st.fullOutput, st.haveIds, st.needIds) : Method σ (Bytes × List ItemId × List ItemId)) (ne.at 0 0) := by
  have hrange : ¬ (PROTOCOL_VERSION < 0x60 ∨ PROTOCOL_VERSION > 0x6F) := by decide
  have hbyte : call (getByte (PROTOCOL_VERSION :: encoded)) (ne.at 0 0) =
      .ok (PROTOCOL_VERSION, encoded) (ne.at 0 0) := rfl
  have hmodify : (modify fun ne => { ne with lastTimestampIn := 0, lastTimestampOut := 0 } : Method σ PUnit) ne =
      .ok ⟨⟩ (ne.at 0 0) := rfl
  rw [reconcileAux]
  refine (bind_of_ok hmodify).trans ((bind_of_ok hbyte).trans ?_)
  simp only [if_neg hrange, ne_eq, not_true_eq_false, if_false]
  exact bind_of_ok (storageSize_eq hs 0 0)

/-- A query whose bounds do not decrease is answered, or fails at a range that cannot be read. -/
theorem reconcileAux_cases (hs : Presents ne.storage items fp) (encoded : Bytes)
    (hsorted : Range.Sorted (readMessage (PROTOCOL_VERSION :: encoded)).1) :
    let a := (ne.party items).reply (sameFp fp) (readMessage (PROTOCOL_VERSION :: encoded)).1
    (∃ i o, reconcileAux (PROTOCOL_VERSION :: encoded) ne =
        .ok (message (render fp a.out), a.haveIds, a.needIds) (ne.at i o)) ∨
      (readMessage (PROTOCOL_VERSION :: encoded)).2 ≠ [] ∧
        ∀ x ne', reconcileAux (PROTOCOL_VERSION :: encoded) ne ≠ .ok x ne' := by
  have hread : readMessage (PROTOCOL_VERSION :: encoded) = readRanges encoded.length 0 encoded := by
    rw [readMessage, if_pos rfl]
  rw [hread] at hsorted ⊢
  have hstart : (({} : Party.Answer Fingerprint).prevIndex) =
      lowerBound items ({} : Party.Answer Fingerprint).prevBound.item :=
    (lowerBound_eq_zero hs.sorted fun x _ => Bound.zero_le x).symm
  have hpairwise : (({} : Party.Answer Fingerprint).prevBound.item ::
      (readRanges encoded.length 0 encoded).1.map (·.bound.item)).Pairwise (· ≤ ·) :=
    List.pairwise_cons.mpr ⟨fun x _ => Bound.zero_le x, hsorted⟩
  rw [reconcileAux_version hs.toReads]
  rcases reconcileLoop_eq hs encoded.length {} encoded 0 le_rfl hstart hpairwise with ⟨rest, i, o, hloop⟩ | ⟨hne, hloop⟩
  · left
    refine ⟨i, o, (bind_of_ok hloop).trans ?_⟩
    rfl
  · exact .inr ⟨hne, fun x ne' => bind_of_not_ok hloop x ne'⟩

/-- What an accepted query whose bounds do not decrease is answered with. -/
theorem reconcileAux_ok (hs : Presents ne.storage items fp) {query : Bytes} (hsorted : Range.Sorted (readMessage query).1)
    {r : Bytes × List ItemId × List ItemId} {ne' : Negentropy σ} (h : reconcileAux query ne = .ok r ne') :
    r.1 = message (render fp ((ne.party items).reply (sameFp fp) (readMessage query).1).out) := by
  cases query with
  | nil =>
    rw [reconcileAux] at h
    obtain ⟨_, _, -, h⟩ := bind_eq_ok.mp h
    obtain ⟨_, _, hbyte, -⟩ := bind_eq_ok.mp h
    cases (call_eq_ok.mp hbyte).1
  | cons version encoded =>
    by_cases hv : version = PROTOCOL_VERSION
    · subst hv
      rcases reconcileAux_cases hs encoded hsorted with ⟨i, o, heq⟩ | ⟨-, hno⟩
      · rw [heq] at h
        cases h
        rfl
      · exact absurd h (hno _ _)
    · have hread : readMessage (version :: encoded) = ([], []) := if_neg hv
      rw [hread]
      rw [reconcileAux] at h
      obtain ⟨_, _, -, h⟩ := bind_eq_ok.mp h
      obtain ⟨⟨v, rest⟩, _, hbyte, h⟩ := bind_eq_ok.mp h
      obtain ⟨hbyte, rfl⟩ := call_eq_ok.mp hbyte
      cases hbyte
      dsimp only at h
      split at h
      · exact absurd h throw_ne_ok
      · obtain ⟨_, _, -, h⟩ := bind_eq_ok.mp h
        split at h
        · exact absurd h throw_ne_ok
        · cases h
          rfl

omit [StorageBase σ] in
theorem message_length_one {rs : List (Range Fingerprint)} : (message rs).length = 1 ↔ rs = [] := by
  cases rs with
  | nil => simp [message, rangesBytes]
  | cons r rs =>
    have := List.length_pos_iff.mpr (boundBytes_ne_nil 0 r.bound)
    simp only [message, rangesBytes, List.length_cons, List.length_append, reduceCtorEq, iff_false]
    omega

/-- What either method returns, if it does. -/
theorem reconcile_ok (hs : Presents ne.storage items fp) {query : Bytes} (hsorted : Range.Sorted (readMessage query).1)
    {m : Bytes} {ne' : Negentropy σ} (h : reconcile query ne = .ok m ne') :
    m = message (render fp ((ne.party items).reply (sameFp fp) (readMessage query).1).out) := by
  rw [reconcile] at h
  obtain ⟨_, _, hget, h⟩ := bind_eq_ok.mp h
  obtain ⟨rfl, rfl⟩ := get_eq_ok.mp hget
  split at h
  · exact absurd h throw_ne_ok
  · obtain ⟨⟨output, haveIds, needIds⟩, _, haux, h⟩ := bind_eq_ok.mp h
    cases h
    exact reconcileAux_ok hs hsorted haux

theorem reconcileHaveNeed_ok (hs : Presents ne.storage items fp) {query : Bytes}
    (hsorted : Range.Sorted (readMessage query).1) {m : Option Bytes} {haveIds needIds : List ItemId} {ne' : Negentropy σ}
    (h : reconcileHaveNeed query ne = .ok (m, haveIds, needIds) ne') :
    let rs := render fp ((ne.party items).reply (sameFp fp) (readMessage query).1).out
    m = if rs = [] then none else some (message rs) := by
  rw [reconcileHaveNeed] at h
  obtain ⟨_, _, hget, h⟩ := bind_eq_ok.mp h
  obtain ⟨rfl, rfl⟩ := get_eq_ok.mp hget
  split at h
  · exact absurd h throw_ne_ok
  · obtain ⟨⟨output, hs', ns'⟩, _, haux, h⟩ := bind_eq_ok.mp h
    obtain ⟨heq, -⟩ := pure_eq_ok.mp h
    have hout : output = _ := reconcileAux_ok hs hsorted haux
    rw [hout] at heq
    simp only [message_length_one] at heq
    exact (Prod.mk.inj heq).1.symm

/-- A message that can be encoded is answered. -/
theorem reconcileAux_message (hs : Presents ne.storage items fp) {rs : List (Range Fingerprint)} (henc : Encodable 0 rs)
    (hsorted : Range.Sorted rs) :
    let a := (ne.party items).reply (sameFp fp) rs
    ∃ i o, reconcileAux (message rs) ne = .ok (message (render fp a.out), a.haveIds, a.needIds) (ne.at i o) := by
  have hread := readMessage_message henc
  have hcases := reconcileAux_cases hs (rangesBytes 0 rs) (by
    rw [← message, hread]
    exact hsorted)
  rw [← message, hread] at hcases
  exact hcases.resolve_right fun h => h.1 rfl

theorem reconcile_message (hs : Presents ne.storage items fp) (hinit : ne.isInitiator = false)
    {rs : List (Range Fingerprint)} (henc : Encodable 0 rs) (hsorted : Range.Sorted rs) :
    ∃ i o, reconcile (message rs) ne =
      .ok (message (render fp ((ne.party items).reply (sameFp fp) rs).out)) (ne.at i o) := by
  obtain ⟨i, o, haux⟩ := reconcileAux_message hs henc hsorted
  have hget : (get : Method σ (Negentropy σ)) ne = .ok ne ne := rfl
  refine ⟨i, o, ?_⟩
  rw [reconcile]
  refine (bind_of_ok hget).trans ?_
  rw [hinit, if_neg Bool.false_ne_true]
  exact (bind_of_ok haux).trans rfl

theorem reconcileHaveNeed_message (hs : Presents ne.storage items fp) (hinit : ne.isInitiator = true)
    {rs : List (Range Fingerprint)} (henc : Encodable 0 rs) (hsorted : Range.Sorted rs) :
    let a := (ne.party items).reply (sameFp fp) rs
    ∃ i o, reconcileHaveNeed (message rs) ne =
      .ok (if a.out = [] then none else some (message (render fp a.out)), a.haveIds, a.needIds) (ne.at i o) := by
  obtain ⟨i, o, haux⟩ := reconcileAux_message hs henc hsorted
  have hget : (get : Method σ (Negentropy σ)) ne = .ok ne ne := rfl
  refine ⟨i, o, ?_⟩
  rw [reconcileHaveNeed]
  refine (bind_of_ok hget).trans ?_
  rw [hinit, if_neg (not_not.mpr rfl)]
  refine (bind_of_ok haux).trans ?_
  have hempty : render fp ((ne.party items).reply (sameFp fp) rs).out = [] ↔
      ((ne.party items).reply (sameFp fp) rs).out = [] := List.map_eq_nil_iff
  simp only [message_length_one, hempty]
  rfl

/-- The first message of an object. -/
theorem initiate_eq (hs : Reads ne.storage items fp) (hinit : ne.isInitiator = false) :
    initiate ne =
      .ok (PROTOCOL_VERSION :: rangesBytes ne.lastTimestampOut (render fp (ne.party items).initial))
        ({ ne with isInitiator := true }.at ne.lastTimestampIn
          (lastTimestamp ne.lastTimestampOut (ne.party items).initial)) := by
  have hget : (get : Method σ (Negentropy σ)) ne = .ok ne ne := rfl
  have hmodify : (modify fun ne => { ne with isInitiator := true } : Method σ PUnit) ne =
      .ok ⟨⟩ { ne with isInitiator := true } := rfl
  have hs' : Reads ({ ne with isInitiator := true } : Negentropy σ).storage items fp := hs
  rw [initiate]
  refine (bind_of_ok hget).trans ?_
  rw [hinit, if_neg Bool.false_ne_true]
  refine (bind_of_ok hmodify).trans ((bind_of_ok (storageSize_eq hs' ne.lastTimestampIn ne.lastTimestampOut)).trans ?_)
  exact (bind_of_ok (splitRange_eq hs' (Nat.zero_le _) le_rfl _ ne.lastTimestampIn ne.lastTimestampOut)).trans rfl

theorem initiate_ok (hs : Reads ne.storage items fp) {m : Bytes} {ne' : Negentropy σ} (h : initiate ne = .ok m ne') :
    m = PROTOCOL_VERSION :: rangesBytes ne.lastTimestampOut (render fp (ne.party items).initial) := by
  cases hinit : ne.isInitiator with
  | true =>
    rw [initiate] at h
    obtain ⟨_, _, hget, h⟩ := bind_eq_ok.mp h
    obtain ⟨rfl, rfl⟩ := get_eq_ok.mp hget
    rw [hinit, if_pos rfl] at h
    exact absurd h throw_ne_ok
  | false =>
    rw [initiate_eq hs hinit] at h
    cases h
    rfl

end

end NE
