import Negentropy.Calls
import Negentropy.Sha256
import Negentropy.Storage.Vector

/-! What a call returns after other calls on the same object. `reconcile` starts afresh whatever
came before; `initiate` takes the offset of its first bound from the last bound written. -/

namespace NE

open Sorted Stateful Negentropy

inductive Call where
  | initiate
  | setInitiator
  | reconcile (query : Bytes)
  | reconcileHaveNeed (query : Bytes)

section
variable {σ α : Type}

/-- What the caller sees. -/
def outcome (m : Method σ α) (ne : Negentropy σ) : Except Err α :=
  match m ne with
  | .ok a _ => .ok a
  | .error e _ => .error e

/-- The object after the call. -/
def leaves (m : Method σ α) (ne : Negentropy σ) : Negentropy σ :=
  match m ne with
  | .ok _ ne => ne
  | .error _ ne => ne

theorem outcome_ok {m : Method σ α} {ne ne' : Negentropy σ} {a : α} (h : m ne = .ok a ne') : outcome m ne = .ok a := by
  rw [outcome, h]

end

section
variable {σ : Type} [StorageBase σ]

/-- One call leaves this object, whether it returns or throws. -/
def Call.leave : Call → Negentropy σ → Negentropy σ
  | .initiate, ne => leaves Negentropy.initiate ne
  | .setInitiator, ne => leaves Negentropy.setInitiator ne
  | .reconcile query, ne => leaves (Negentropy.reconcile query) ne
  | .reconcileHaveNeed query, ne => leaves (Negentropy.reconcileHaveNeed query) ne

/-- The object after these calls. -/
def afterCalls (history : List Call) (ne : Negentropy σ) : Negentropy σ := history.foldl (fun ne c => c.leave ne) ne

/-- A fresh object of the same storage, limit and role. -/
def Negentropy.fresh (ne : Negentropy σ) : Negentropy σ := ne.at 0 0

/-- Where the first bucket of a split of all the items ends. -/
def firstCut (n : ℕ) : ℕ := n / buckets + if 0 < n % buckets then 1 else 0

/-- The last message left an offset behind, and the first bound that `initiate` sends is finite. -/
def Shifted (ne : Negentropy σ) (items : List Item) : Prop :=
  ne.lastTimestampOut ≠ 0 ∧ buckets * 2 ≤ items.length ∧ (items.getD (firstCut items.length) {}).timestamp ≠ MAX_U64

instance (ne : Negentropy σ) (items : List Item) : Decidable (Shifted ne items) := inferInstanceAs (Decidable (_ ∧ _ ∧ _))

/-- `reconcileAux` resets both timestamps before anything else. -/
theorem reconcileAux_fresh (query : Bytes) (ne : Negentropy σ) :
    Negentropy.reconcileAux query ne = Negentropy.reconcileAux query ne.fresh := rfl

theorem reconcile_fresh (query : Bytes) (ne : Negentropy σ) :
    outcome (Negentropy.reconcile query) ne = outcome (Negentropy.reconcile query) ne.fresh := by
  have hflag : ne.fresh.isInitiator = ne.isInitiator := rfl
  unfold outcome Negentropy.reconcile
  simp only [bind, EStateM.bind, get_apply, hflag]
  cases ne.isInitiator with
  | true => rfl
  | false => simp only [Bool.false_eq_true, if_false, EStateM.bind, reconcileAux_fresh query ne]

theorem reconcileHaveNeed_fresh (query : Bytes) (ne : Negentropy σ) :
    outcome (Negentropy.reconcileHaveNeed query) ne = outcome (Negentropy.reconcileHaveNeed query) ne.fresh := by
  have hflag : ne.fresh.isInitiator = ne.isInitiator := rfl
  unfold outcome Negentropy.reconcileHaveNeed
  simp only [bind, EStateM.bind, get_apply, hflag]
  cases ne.isInitiator with
  | true => simp only [not_true_eq_false, if_false, EStateM.bind, reconcileAux_fresh query ne]
  | false => rfl

/-! ### The first bound of `initiate` -/

omit [StorageBase σ] in
theorem encodeVarInt_inj {a b : UInt64} (h : encodeVarInt a = encodeVarInt b) : a = b := by
  have ha := decodeVarInt_encodeVarInt a []
  rw [h, decodeVarInt_encodeVarInt] at ha
  injection ha with ha
  exact (congrArg Prod.fst ha).symm

omit [StorageBase σ] in
/-- A bound is written the same way relative to 0 and to `o` only if it is infinite, or `o` is 0. -/
theorem boundBytes_eq_iff (o : UInt64) (b : Bound) :
    boundBytes o b = boundBytes 0 b ↔ b.item.timestamp = MAX_U64 ∨ o = 0 := by
  by_cases hmax : b.item.timestamp = MAX_U64
  · simp only [boundBytes, hmax, if_true, true_or]
  · constructor
    · intro h
      simp only [boundBytes, hmax, if_false, List.append_assoc, List.append_left_inj] at h
      have heq := encodeVarInt_inj h
      have hsub := congrArg UInt64.toNat (show b.item.timestamp - o = b.item.timestamp by simpa using heq)
      have ho := o.toNat_lt
      have hb := b.item.timestamp.toNat_lt
      rw [UInt64.toNat_sub] at hsub
      exact .inr (UInt64.toNat_inj.mp (show o.toNat = 0 by omega))
    · rintro (h | rfl)
      · exact absurd h hmax
      · rfl

omit [StorageBase σ] in
theorem rangesBytes_eq_iff (o : UInt64) (r : Range Fingerprint) (rs : List (Range Fingerprint)) :
    rangesBytes o (r :: rs) = rangesBytes 0 (r :: rs) ↔ r.bound.item.timestamp = MAX_U64 ∨ o = 0 := by
  simp only [rangesBytes, List.append_assoc, List.append_left_inj]
  exact boundBytes_eq_iff o r.bound

/-- The first range of a first message ends at infinity, or where the second bucket starts. -/
theorem initial_head (P : Party) :
    ∃ r rs, P.initial = r :: rs ∧
      (r.bound.item.timestamp = MAX_U64 ↔
        ¬ (buckets * 2 ≤ P.items.length ∧ (P.items.getD (firstCut P.items.length) {}).timestamp ≠ MAX_U64)) := by
  unfold Party.initial Party.splitRange
  rw [Nat.sub_zero]
  by_cases hn : P.items.length < buckets * 2
  · refine ⟨_, [], if_pos hn, ?_⟩
    have hnot : ¬ buckets * 2 ≤ P.items.length := not_le.mpr hn
    simp [hnot]
  · have hn' : 32 ≤ P.items.length := not_lt.mp hn
    have hcut : firstCut P.items.length ≠ P.items.length := by
      unfold firstCut
      change P.items.length / 16 + (if 0 < P.items.length % 16 then 1 else 0) ≠ P.items.length
      split <;> omega
    have hts : ∀ prev curr : Item, (getMinimalBound prev curr).item.timestamp = curr.timestamp := by
      intro prev curr
      unfold getMinimalBound
      split <;> rfl
    refine ⟨_, _, if_neg hn, ?_⟩
    have hle : buckets * 2 ≤ P.items.length := not_lt.mp hn
    have hnext : 0 + (P.items.length / buckets + if buckets - (15 + 1) < P.items.length % buckets then 1 else 0) =
        firstCut P.items.length := Nat.zero_add _
    simp only [hnext, if_neg hcut, hts, hle, true_and, not_not, Party.item]

theorem initiate_fresh_iff {ne : Negentropy σ} {items : List Item} {fp : ℕ → ℕ → Fingerprint}
    (hs : Reads ne.storage items fp) (hinit : ne.isInitiator = false) :
    outcome Negentropy.initiate ne = outcome Negentropy.initiate ne.fresh ↔ ¬ Shifted ne items := by
  have hfresh : Reads ne.fresh.storage items fp := hs
  rw [outcome_ok (initiate_eq hs hinit), outcome_ok (initiate_eq hfresh (show ne.fresh.isInitiator = false from hinit))]
  obtain ⟨r, rs, hinitial, htime⟩ := initial_head (ne.party items)
  have hparty : ne.fresh.party items = ne.party items := rfl
  rw [hparty, hinitial, Except.ok.injEq, List.cons.injEq]
  simp only [true_and]
  change rangesBytes ne.lastTimestampOut (render fp (r :: rs)) = rangesBytes 0 (render fp (r :: rs)) ↔ _
  rw [render_cons, rangesBytes_eq_iff]
  change r.bound.item.timestamp = MAX_U64 ∨ ne.lastTimestampOut = 0 ↔ _
  rw [htime, Shifted]
  change (¬ (_ ∧ (items.getD (firstCut items.length) {}).timestamp ≠ MAX_U64) ∨ _) ↔ _
  tauto

/-- A storage that refuses to tell its size. -/
theorem initiate_refused {ne : Negentropy σ} {e : Err} (hs : StorageBase.size ne.storage = .error e) :
    outcome Negentropy.initiate ne = outcome Negentropy.initiate ne.fresh := by
  have hs' : StorageBase.size ne.fresh.storage = .error e := hs
  have hflag : ne.fresh.isInitiator = ne.isInitiator := rfl
  unfold outcome Negentropy.initiate
  simp only [bind, EStateM.bind, get_apply, hflag]
  cases ne.isInitiator with
  | true => rfl
  | false =>
    simp only [Bool.false_eq_true, if_false, modify_apply, storageSize,
      bind, EStateM.bind, get_apply, hs, hs', call]
    rfl

/-- After any calls, also such that threw, both `reconcile`s do what they do on a fresh object,
and so does `initiate` unless its first bound is shifted by what was written before. -/
theorem outcome_after_calls (ne : Negentropy σ) (history : List Call) :
    let ne' := afterCalls history ne
    (∀ query, outcome (Negentropy.reconcile query) ne' = outcome (Negentropy.reconcile query) ne'.fresh) ∧
      (∀ query, outcome (Negentropy.reconcileHaveNeed query) ne' = outcome (Negentropy.reconcileHaveNeed query) ne'.fresh) ∧
      (∀ e, StorageBase.size ne'.storage = .error e →
        outcome Negentropy.initiate ne' = outcome Negentropy.initiate ne'.fresh) ∧
      ∀ items fp, Reads ne'.storage items fp → ne'.isInitiator = false →
        (outcome Negentropy.initiate ne' = outcome Negentropy.initiate ne'.fresh ↔ ¬ Shifted ne' items) :=
  ⟨fun query => reconcile_fresh query _, fun query => reconcileHaveNeed_fresh query _, fun _ hs => initiate_refused hs,
    fun _ _ hs hinit => initiate_fresh_iff hs hinit⟩

end

/-! ### An offset left behind, and one taken back -/

section
local instance historySha256 : Sha256 := SHA256.real

/-- 32 items, at the timestamps 0 to 31. -/
def shiftedItems : List Item := (List.range 32).map fun i => ⟨UInt64.ofNat i, ItemId.zero⟩

def shiftedObject : Negentropy Storage.Vector := { storage := ⟨shiftedItems, true⟩, frameSizeLimit := 0, limit_ok := limit_ok_none }

/-- An empty list of ids for everything before the timestamp 5. -/
def shiftedQuery : Bytes := [0x61, 6, 0, 2, 0]

/-- A server that has answered this query becomes a client, and its first bound is 5 too low. -/
theorem initiate_after_reconcile :
    (afterCalls [.reconcile shiftedQuery] shiftedObject).isInitiator = false ∧
      outcome Negentropy.initiate (afterCalls [.reconcile shiftedQuery] shiftedObject) ≠
        outcome Negentropy.initiate (afterCalls [.reconcile shiftedQuery] shiftedObject).fresh := by
  have hstorage : (afterCalls [.reconcile shiftedQuery] shiftedObject).storage = ⟨shiftedItems, true⟩ := rfl
  have hinit : (afterCalls [.reconcile shiftedQuery] shiftedObject).isInitiator = false := rfl
  have hout : (afterCalls [.reconcile shiftedQuery] shiftedObject).lastTimestampOut = 5 := by decide +kernel
  have hreads := Storage.Vector.reads (v := ⟨shiftedItems, true⟩) rfl (by decide)
  rw [← hstorage] at hreads
  refine ⟨hinit, fun heq => (initiate_fresh_iff hreads hinit).mp heq ⟨?_, ?_, ?_⟩⟩
  · rw [hout]
    decide
  · rw [hstorage]
    decide
  · rw [hstorage]
    decide

/-- One more query, without any ranges, resets the offset. -/
theorem initiate_after_empty_query :
    outcome Negentropy.initiate (afterCalls [.reconcile shiftedQuery, .reconcile [0x61]] shiftedObject) =
      outcome Negentropy.initiate (afterCalls [.reconcile shiftedQuery, .reconcile [0x61]] shiftedObject).fresh := by
  have hreads : Reads (afterCalls [.reconcile shiftedQuery, .reconcile [0x61]] shiftedObject).storage shiftedItems _ :=
    Storage.Vector.reads (v := ⟨shiftedItems, true⟩) rfl (by decide)
  have hout : (afterCalls [.reconcile shiftedQuery, .reconcile [0x61]] shiftedObject).lastTimestampOut = 0 := by
    decide +kernel
  exact ((outcome_after_calls shiftedObject [.reconcile shiftedQuery, .reconcile [0x61]]).2.2.2 _ _ hreads rfl).mpr
    fun h => h.1 hout

end

end NE
