import Negentropy.Storage.Agree
import Negentropy.Truthful

/-! Two objects whose storages present the same items cannot be told apart: what their methods
return is the same. -/

namespace NE

open Sorted Stateful Negentropy

/-- What a call has returned, if it has not thrown. -/
def returned {ε σ α : Type} : EStateM.Result ε σ α → Option α
  | .ok x _ => some x
  | .error _ _ => none

theorem returned_eq_none {ε σ α : Type} {r : EStateM.Result ε σ α} (h : ∀ x s, r ≠ .ok x s) : returned r = none := by
  cases r with
  | ok x s => exact absurd rfl (h x s)
  | error e s => rfl

section
variable {σ τ : Type} [StorageBase σ] [StorageBase τ] {ne : Negentropy σ} {ne' : Negentropy τ} {items : List Item}
  {fp : ℕ → ℕ → Fingerprint}

/-- The loop fails on the same queries, and else computes the same reply. -/
theorem reconcileLoop_same (hs : Presents ne.storage items fp) (hs' : Presents ne'.storage items fp)
    (hparty : ne.party items = ne'.party items) :
    ∀ (rounds : ℕ) (st : Party.Answer Fingerprint) (encoded : Bytes) (i : UInt64),
      st.prevIndex = lowerBound items st.prevBound.item →
      (st.prevBound.item :: (readRanges rounds i encoded).1.map (·.bound.item)).Pairwise (· ≤ ·) →
      returned (reconcileLoop items.length rounds (st.state fp encoded) (ne.at i (lastTimestamp 0 st.out))) =
        returned (reconcileLoop items.length rounds (st.state fp encoded) (ne'.at i (lastTimestamp 0 st.out))) := by
  intro rounds
  induction rounds with
  | zero => exact fun _ _ _ _ _ => rfl
  | succ rounds ih =>
    intro st encoded i hprev hmono
    by_cases hnil : encoded = []
    · subst hnil
      rfl
    · have hquery : ¬ (st.state fp encoded).query = [] := hnil
      rw [reconcileLoop, reconcileLoop, if_neg hquery, if_neg hquery]
      cases hread : readRange i encoded with
      | error e =>
        have hfail : ∀ {ρ : Type} [StorageBase ρ] (nf : Negentropy ρ) x s,
            reconcileRange items.length (st.state fp encoded) (nf.at i (lastTimestamp 0 st.out)) ≠ .ok x s := by
          intro ρ _ nf x s hok
          obtain ⟨r, rest, hr⟩ := readRange_of_reconcileRange hok
          exact absurd (hr.symm.trans hread) (by simp)
        rw [returned_eq_none (bind_of_not_ok (hfail ne)), returned_eq_none (bind_of_not_ok (hfail ne'))]
      | ok p =>
        obtain ⟨r, rest⟩ := p
        have hranges : (readRanges (rounds + 1) i encoded).1 = r :: (readRanges rounds r.bound.item.timestamp rest).1 := by
          rw [readRanges, if_neg hnil, hread]
        simp only [hranges, List.map_cons, List.pairwise_cons] at hmono
        have hl : st.prevIndex ≤ lowerBound items r.bound.item :=
          hprev ▸ lowerBound_mono hs.sorted (hmono.1 _ List.mem_cons_self)
        have hstep := reconcileRange_eq hs.toReads st hread (hs.findLowerBound _ _ hl) hl
        have hstep' := reconcileRange_eq hs'.toReads st hread (hs'.findLowerBound _ _ hl) hl
        rw [← hparty] at hstep'
        rw [bind_of_ok hstep, bind_of_ok hstep']
        cases hans : (ne.party items).answer (sameFp fp) st r with
        | mk st' stop =>
          cases stop with
          | true => rfl
          | false =>
            obtain ⟨hb, hi⟩ := Party.answer_continues (P := ne.party items) hl hans
            refine ih st' rest r.bound.item.timestamp ?_ ?_
            · rw [hi, hb]
              rfl
            · rw [hb]
              exact List.pairwise_cons.mpr hmono.2

theorem returned_bind {ε α β ρ ρ' : Type} {m : EStateM ε ρ α} {m' : EStateM ε ρ' α} {f : α → EStateM ε ρ β}
    {f' : α → EStateM ε ρ' β} {s : ρ} {s' : ρ'} (hm : returned (m s) = returned (m' s'))
    (hf : ∀ x t t', m s = .ok x t → m' s' = .ok x t' → returned (f x t) = returned (f' x t')) :
    returned ((m >>= f) s) = returned ((m' >>= f') s') := by
  cases h : m s with
  | ok x t =>
    cases h' : m' s' with
    | ok x' t' =>
      rw [h, h'] at hm
      obtain rfl := Option.some.inj hm
      rw [bind_of_ok h, bind_of_ok h']
      exact hf x t t' h h'
    | error e t' =>
      rw [h, h'] at hm
      cases hm
  | error e t =>
    cases h' : m' s' with
    | ok x' t' =>
      rw [h, h'] at hm
      cases hm
    | error e' t' =>
      rw [returned_eq_none (bind_of_not_ok fun x u => by simp [h]), returned_eq_none (bind_of_not_ok fun x u => by simp [h'])]

/-- The same role and limits. -/
structure SameParty (ne : Negentropy σ) (ne' : Negentropy τ) : Prop where
  frameSizeLimit : ne.frameSizeLimit = ne'.frameSizeLimit
  isInitiator : ne.isInitiator = ne'.isInitiator

omit [StorageBase τ] in
/-- The answer to another version does not look at the storage. -/
theorem reconcileAux_other (ne : Negentropy σ) {version : UInt8} (hv : version ≠ PROTOCOL_VERSION) (encoded : Bytes) :
    returned (reconcileAux (version :: encoded) ne) =
      if version < 0x60 ∨ version > 0x6F ∨ ne.isInitiator = true then none else some ([PROTOCOL_VERSION], [], []) := by
  have hmodify : (modify fun ne => { ne with lastTimestampIn := 0, lastTimestampOut := 0 } : Method σ PUnit) ne =
      .ok ⟨⟩ (ne.at 0 0) := rfl
  have hbyte : call (getByte (version :: encoded)) (ne.at 0 0) = .ok (version, encoded) (ne.at 0 0) := rfl
  have hget : (get : Method σ (Negentropy σ)) (ne.at 0 0) = .ok (ne.at 0 0) (ne.at 0 0) := rfl
  rw [reconcileAux, bind_of_ok hmodify, bind_of_ok hbyte]
  dsimp only
  by_cases hrange : version < 0x60 ∨ version > 0x6F
  · rw [if_pos hrange, if_pos (hrange.imp_right Or.inl)]
    rfl
  · rw [if_neg hrange, if_pos hv, bind_of_ok hget]
    by_cases hinit : ne.isInitiator = true
    · rw [if_pos (show (ne.at 0 0).isInitiator = true from hinit), if_pos (.inr (.inr hinit))]
      rfl
    · rw [if_neg (show ¬ (ne.at 0 0).isInitiator = true from hinit), if_neg (by tauto)]
      rfl

variable (hs : Presents ne.storage items fp) (hs' : Presents ne'.storage items fp) (hsame : SameParty ne ne')
include hs hs' hsame

theorem reconcileAux_same (query : Bytes) (hsorted : Range.Sorted (readMessage query).1) :
    returned (reconcileAux query ne) = returned (reconcileAux query ne') := by
  have hparty : ne.party items = ne'.party items := by rw [party, party, hsame.frameSizeLimit, hsame.isInitiator]
  cases query with
  | nil => rfl
  | cons version encoded =>
    by_cases hv : version = PROTOCOL_VERSION
    · subst hv
      rw [readMessage, if_pos rfl] at hsorted
      have hstart : (({} : Party.Answer Fingerprint).prevIndex) =
          lowerBound items ({} : Party.Answer Fingerprint).prevBound.item :=
        (lowerBound_eq_zero hs.sorted fun x _ => Bound.zero_le x).symm
      rw [reconcileAux_version hs.toReads, reconcileAux_version hs'.toReads]
      exact returned_bind
        (reconcileLoop_same hs hs' hparty encoded.length {} encoded 0 hstart
          (List.pairwise_cons.mpr ⟨fun x _ => Bound.zero_le x, hsorted⟩))
        (fun st _ _ _ _ => rfl)
    · rw [reconcileAux_other ne hv, reconcileAux_other ne' hv, hsame.isInitiator]

/-- `reconcile` returns the same. -/
theorem reconcile_same (query : Bytes) (hsorted : Range.Sorted (readMessage query).1) :
    returned (reconcile query ne) = returned (reconcile query ne') := by
  have haux := reconcileAux_same hs hs' hsame query hsorted
  have hget : ∀ {ρ : Type} (nf : Negentropy ρ), (get : Method ρ (Negentropy ρ)) nf = .ok nf nf := fun _ => rfl
  rw [reconcile, reconcile, bind_of_ok (hget ne), bind_of_ok (hget ne'), hsame.isInitiator]
  split
  · rfl
  · exact returned_bind haux fun _ _ _ _ _ => rfl

/-- And so does the initiator's. -/
theorem reconcileHaveNeed_same (query : Bytes) (hsorted : Range.Sorted (readMessage query).1) :
    returned (reconcileHaveNeed query ne) = returned (reconcileHaveNeed query ne') := by
  have haux := reconcileAux_same hs hs' hsame query hsorted
  have hget : ∀ {ρ : Type} (nf : Negentropy ρ), (get : Method ρ (Negentropy ρ)) nf = .ok nf nf := fun _ => rfl
  rw [reconcileHaveNeed, reconcileHaveNeed, bind_of_ok (hget ne), bind_of_ok (hget ne'), hsame.isInitiator]
  split
  · rfl
  · exact returned_bind haux fun _ _ _ _ _ => rfl

theorem initiate_same (hlast : ne.lastTimestampOut = ne'.lastTimestampOut) :
    returned (initiate ne) = returned (initiate ne') := by
  have hparty : ne.party items = ne'.party items := by rw [party, party, hsame.frameSizeLimit, hsame.isInitiator]
  by_cases hinit : ne'.isInitiator = true
  · have hget : ∀ {ρ : Type} (nf : Negentropy ρ), (get : Method ρ (Negentropy ρ)) nf = .ok nf nf := fun _ => rfl
    rw [initiate, initiate, bind_of_ok (hget ne), bind_of_ok (hget ne'), hsame.isInitiator, hinit]
    rfl
  · rw [Bool.not_eq_true] at hinit
    rw [initiate_eq hs.toReads (hsame.isInitiator.trans hinit), initiate_eq hs'.toReads hinit, hparty, hlast]
    rfl

end

/-! ### A tree and a vector -/

open Storage in
/-- Whatever its history, a tree makes a party say what the sealed vector of the same items makes it say. -/
theorem storage_invisible [Sha256] (cfg : BTree.Config) (ops : List BTreeMem.Op) {v : Vector}
    (hv : v.Holds (BTreeMem.itemsAfter ∅ ops)) (hcard : (BTreeMem.itemsAfter ∅ ops).card < 2 ^ 64) :
    ∃ t, BTreeMem.run ({} : BTreeMem cfg) ops = .ok (BTreeMem.answers ∅ ops, t) ∧
      ∀ (tree : Negentropy (BTreeMem cfg)) (vec : Negentropy Vector), tree.storage = t → vec.storage = v →
        SameParty tree vec →
          (tree.lastTimestampOut = vec.lastTimestampOut → returned (initiate tree) = returned (initiate vec)) ∧
          ∀ query, Range.Sorted (readMessage query).1 →
            returned (reconcile query tree) = returned (reconcile query vec) ∧
            returned (reconcileHaveNeed query tree) = returned (reconcileHaveNeed query vec) := by
  obtain ⟨t, levels, hrun, h⟩ := BTreeMem.reachable_holds cfg ops hv
  have hlen : v.items.length < 2 ^ 64 := by rwa [← length_eq hv.sorted hv.toFinset] at hcard
  have hvec := Vector.presents hv.isSealed hlen hv.sorted
  refine ⟨t, hrun, fun tree vec htree hstorage hsame => ?_⟩
  have hs : Presents tree.storage v.items (fun b e => fingerprintOf (slice v.items b e)) := by
    rw [htree]
    exact BTreeMem.presents h hlen
  have hs' : Presents vec.storage v.items (fun b e => fingerprintOf (slice v.items b e)) := by
    rw [hstorage]
    exact hvec
  exact ⟨initiate_same hs hs' hsame, fun query hsorted =>
    ⟨reconcile_same hs hs' hsame query hsorted, reconcileHaveNeed_same hs hs' hsame query hsorted⟩⟩

section

open Storage

local instance interchangeSha256 : Sha256 := SHA256.real

/-- A list of ids for the first item, and a fingerprint of the others that is not theirs. -/
def mixedQuery : List (Range Fingerprint) :=
  [⟨Bound.ofTimestamp 1, .idList [(sampleItem 9 0).id]⟩, ⟨Bound.infinity, .fingerprint wrongFingerprint⟩]

theorem mixedQuery_sorted : Range.Sorted mixedQuery := by
  unfold Range.Sorted
  decide

theorem mixedQuery_encodable : Encodable 0 mixedQuery := ⟨by decide, show 1 < 2 ^ 64 by decide, by decide, trivial, trivial⟩

/-- A tree of 33 items, and the vector of them. -/
theorem storage_invisible_many :
    ∃ t, BTreeMem.run ({} : BTreeMem BTree.Config.fuzzTest) (clientSample.map .insertItem) =
        .ok (BTreeMem.answers ∅ (clientSample.map .insertItem), t) ∧
      returned (initiate { storage := t, frameSizeLimit := 0, limit_ok := limit_ok_none }) = returned (initiate manyClient) ∧
      ∃ m, returned (reconcile (message mixedQuery) { storage := t, frameSizeLimit := 0, limit_ok := limit_ok_none }) = some m ∧
        returned (reconcile (message mixedQuery) manyClient) = some m := by
  have hitems : BTreeMem.itemsAfter ∅ (clientSample.map .insertItem) = clientSample.toFinset := by
    rw [BTreeMem.itemsAfter_inserts, Finset.empty_union]
  have hcard := clientSample.toFinset_card_le.trans_lt (sample_length.1.trans_lt (show 33 < 2 ^ 64 by decide))
  rw [← hitems] at hcard
  obtain ⟨t, hrun, h⟩ := storage_invisible BTree.Config.fuzzTest (clientSample.map .insertItem) (v := manyClient.storage)
    ⟨rfl, sample_sorted.1, hitems.symm⟩ hcard
  obtain ⟨hinitiate, hreconcile⟩ := h { storage := t, frameSizeLimit := 0, limit_ok := limit_ok_none } manyClient rfl rfl ⟨rfl, rfl⟩
  have hsorted : Range.Sorted (readMessage (message mixedQuery)).1 := by
    rw [readMessage_message mixedQuery_encodable]
    exact mixedQuery_sorted
  obtain ⟨i, o, hreply⟩ := reconcile_message manyClient_presents rfl mixedQuery_encodable mixedQuery_sorted
  have hreturned := congrArg returned hreply
  exact ⟨t, hrun, hinitiate rfl, _, (hreconcile _ hsorted).1.trans hreturned, hreturned⟩

end

end NE
