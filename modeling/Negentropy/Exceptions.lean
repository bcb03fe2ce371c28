import Negentropy.Protocol
import Negentropy.Lib.Guarded
import Negentropy.Storage.LMDB.Programs
import Negentropy.Storage.SubRange

/-! What the methods throw: whatever bytes come in, an exception of the library's own, with a text. -/

namespace NE

open Stateful

/-- A `negentropy::err` that says something. -/
def Err.Spoken (e : Err) : Prop := ∃ msg, e = .err msg ∧ msg ≠ ""

theorem spoken_err {msg : String} (h : msg ≠ "") : (Err.err msg).Spoken := ⟨msg, rfl, h⟩

/-- All that a storage throws are such exceptions. -/
structure Tame {σ : Type} [StorageBase σ] (s : σ) : Prop where
  size : Throws Err.Spoken (StorageBase.size s)
  iterate : ∀ {α : Type} b e (cb : α → Item → ℕ → α × Bool) (st : α), Throws Err.Spoken (StorageBase.iterate s b e cb st)
  findLowerBound : ∀ b e (bound : Bound), Throws Err.Spoken (StorageBase.findLowerBound s b e bound)
  fingerprint : ∀ b e, Throws Err.Spoken (StorageBase.fingerprint s b e)

/-! ### Reading -/

theorem getByte_throws (encoded : Bytes) : Throws Err.Spoken (getByte encoded) := by
  cases encoded with
  | nil => exact throws_error (spoken_err (by decide))
  | cons b rest => exact throws_ok _

theorem getBytes_throws (encoded : Bytes) (n : ℕ) : Throws Err.Spoken (getBytes encoded n) := by
  rw [getBytes]
  split_ifs
  · exact throws_error (spoken_err (by decide))
  · exact throws_ok _

theorem decodeVarIntFrom_throws (res : UInt64) (encoded : Bytes) : Throws Err.Spoken (decodeVarIntFrom res encoded) := by
  induction encoded generalizing res with
  | nil => exact throws_error (spoken_err (by decide))
  | cons byte encoded ih =>
    rw [decodeVarIntFrom]
    split_ifs
    · exact throws_ok _
    · exact ih _

theorem decodeVarInt_throws (encoded : Bytes) : Throws Err.Spoken (decodeVarInt encoded) := decodeVarIntFrom_throws 0 encoded

theorem Bound.make_throws (timestamp : UInt64) (id : Bytes) : Throws Err.Spoken (Bound.make timestamp id) := by
  rw [Bound.make]
  split_ifs
  · exact throws_ok _
  · exact throws_error (spoken_err (by decide))

namespace Negentropy

theorem getId_throws (encoded : Bytes) : Throws Err.Spoken (getId encoded) := by
  rw [getId]
  split_ifs
  · exact throws_error (spoken_err (by decide))
  · exact throws_ok _

theorem getIds_throws (n : ℕ) (encoded : Bytes) : Throws Err.Spoken (getIds n encoded) := by
  induction n generalizing encoded with
  | zero => exact throws_ok _
  | succ n ih => exact (getId_throws encoded).bind fun _ _ => (ih _).bind fun _ _ => throws_ok _

/-! ### The methods -/

variable {σ : Type} {s : σ}

/-- The storage stays as it is, and what is thrown says something. -/
def Speaks {α : Type} (s : σ) (m : Method σ α) : Prop := Guarded (fun ne => ne.storage = s) Err.Spoken m

theorem speaks_call {α : Type} {x : Except Err α} (h : Throws Err.Spoken x) : Speaks s (call x) := by
  cases x with
  | ok a => exact guarded_pure a
  | error e => exact guarded_throw (h e rfl)

theorem decodeTimestampIn_speaks (encoded : Bytes) : Speaks s (decodeTimestampIn encoded) :=
  Guarded.bind (speaks_call (decodeVarInt_throws encoded)) fun _ =>
    guarded_get fun _ _ => Guarded.bind (guarded_modify fun _ h => h) fun _ => guarded_pure _

theorem decodeBound_speaks (encoded : Bytes) : Speaks s (decodeBound encoded) :=
  Guarded.bind (decodeTimestampIn_speaks encoded) fun _ =>
    Guarded.bind (speaks_call (decodeVarInt_throws _)) fun _ => Guarded.bind (speaks_call (getBytes_throws _ _)) fun _ =>
      Guarded.bind (speaks_call (Bound.make_throws _ _)) fun _ => guarded_pure _

theorem encodeTimestampOut_speaks (timestamp : UInt64) : Speaks s (encodeTimestampOut timestamp) := by
  unfold encodeTimestampOut Speaks
  split_ifs
  · exact Guarded.bind (guarded_modify fun _ h => h) fun _ => guarded_pure _
  · exact guarded_get fun _ _ => Guarded.bind (guarded_modify fun _ h => h) fun _ => guarded_pure _

theorem encodeBound_speaks (bound : Bound) : Speaks s (encodeBound bound) :=
  Guarded.bind (encodeTimestampOut_speaks _) fun _ => guarded_pure _

section
variable [StorageBase σ] (hs : Tame s)
include hs

theorem storageSize_speaks : Speaks s (storageSize (σ := σ)) :=
  guarded_get fun _ h => speaks_call (h ▸ hs.size)

theorem findLowerBound_speaks (b e : ℕ) (bound : Bound) : Speaks s (findLowerBound b e bound) :=
  guarded_get fun _ h => speaks_call (h ▸ hs.findLowerBound b e bound)

theorem fingerprint_speaks (b e : ℕ) : Speaks s (fingerprint b e) :=
  guarded_get fun _ h => speaks_call (h ▸ hs.fingerprint b e)

theorem iterate_speaks {α : Type} (b e : ℕ) (cb : α → Item → ℕ → α × Bool) (st : α) : Speaks s (iterate b e cb st) :=
  guarded_get fun _ h => speaks_call (h ▸ hs.iterate b e cb st)

theorem splitBuckets_speaks (upper : ℕ) (upperBound : Bound) (itemsPerBucket bucketsWithExtra remaining curr : ℕ) :
    Speaks s (splitBuckets upper upperBound itemsPerBucket bucketsWithExtra remaining curr) := by
  induction remaining generalizing curr with
  | zero => exact guarded_pure _
  | succ remaining ih =>
    have hrest (nextBound : Bound) (curr : ℕ) (buf : Bytes) : Speaks s (do
        let bound ← encodeBound nextBound
        let o ← splitBuckets upper upperBound itemsPerBucket bucketsWithExtra remaining curr
        return bound ++ encodeVarInt Mode.fingerprint.toU64 ++ buf ++ o) :=
      Guarded.bind (encodeBound_speaks _) fun _ => Guarded.bind (ih _) fun _ => guarded_pure _
    refine Guarded.bind (fingerprint_speaks hs _ _) fun _ => ?_
    generalize (if buckets - (remaining + 1) < bucketsWithExtra then 1 else 0) = extra
    dsimp only
    split_ifs
    · exact hrest _ _ _
    · exact Guarded.bind (iterate_speaks hs _ _ _ _) fun _ => hrest _ _ _

theorem splitRange_speaks (lower upper : ℕ) (upperBound : Bound) : Speaks s (splitRange lower upper upperBound) := by
  unfold splitRange Speaks
  dsimp only
  split_ifs
  · exact Guarded.bind (encodeBound_speaks _) fun _ => Guarded.bind (iterate_speaks hs _ _ _ _) fun _ => guarded_pure _
  · exact splitBuckets_speaks hs _ _ _ _ _ _

omit [StorageBase σ] hs in
theorem doSkip_speaks (st : ReconcileState) : Speaks s (doSkip st) := by
  unfold doSkip Speaks
  split_ifs
  · exact Guarded.bind (encodeBound_speaks _) fun _ => guarded_pure _
  · exact guarded_pure _

theorem finishRange_speaks (size : ℕ) (currBound : Bound) (upper : ℕ) (o : Bytes) (st : ReconcileState) :
    Speaks s (finishRange size currBound upper o st) := by
  refine guarded_get fun _ _ => ?_
  split_ifs
  · exact Guarded.bind (fingerprint_speaks hs _ _) fun _ => Guarded.bind (encodeBound_speaks _) fun _ => guarded_pure _
  · exact guarded_pure _

theorem reconcileFingerprint_speaks (size : ℕ) (currBound : Bound) (lower upper : ℕ) (st : ReconcileState) :
    Speaks s (reconcileFingerprint size currBound lower upper st) := by
  refine Guarded.bind (speaks_call (getBytes_throws _ _)) fun _ => Guarded.bind (fingerprint_speaks hs _ _) fun _ => ?_
  split_ifs
  · exact Guarded.bind (doSkip_speaks _) fun _ => Guarded.bind (splitRange_speaks hs _ _ _) fun _ =>
      finishRange_speaks hs _ _ _ _ _
  · exact finishRange_speaks hs _ _ _ _ _

theorem reconcileIdList_speaks (size : ℕ) (currBound : Bound) (lower upper : ℕ) (st : ReconcileState) :
    Speaks s (reconcileIdList size currBound lower upper st) := by
  refine Guarded.bind (speaks_call (decodeVarInt_throws _)) fun _ => Guarded.bind (speaks_call (getIds_throws _ _)) fun _ =>
    guarded_get fun _ _ => ?_
  split_ifs
  · exact Guarded.bind (iterate_speaks hs _ _ _ _) fun _ => finishRange_speaks hs _ _ _ _ _
  · exact Guarded.bind (doSkip_speaks _) fun _ => Guarded.bind (iterate_speaks hs _ _ _ _) fun _ =>
      Guarded.bind (encodeBound_speaks _) fun _ => finishRange_speaks hs _ _ _ _ _

theorem reconcileRange_speaks (size : ℕ) (st : ReconcileState) : Speaks s (reconcileRange size st) := by
  refine Guarded.bind (decodeBound_speaks _) fun _ => Guarded.bind (speaks_call (decodeVarInt_throws _)) fun _ =>
    Guarded.bind (findLowerBound_speaks hs _ _ _) fun _ => ?_
  split
  · exact finishRange_speaks hs _ _ _ _ _
  · exact reconcileFingerprint_speaks hs _ _ _ _ _
  · exact reconcileIdList_speaks hs _ _ _ _ _
  · exact guarded_throw (spoken_err (by decide))

theorem reconcileLoop_speaks (size rounds : ℕ) (st : ReconcileState) : Speaks s (reconcileLoop size rounds st) := by
  induction rounds generalizing st with
  | zero => exact guarded_pure _
  | succ rounds ih =>
    unfold reconcileLoop Speaks
    split_ifs
    · exact guarded_pure _
    · refine Guarded.bind (reconcileRange_speaks hs _ _) fun r => ?_
      split
      split_ifs
      · exact guarded_pure _
      · exact ih _

theorem reconcileAux_speaks (query : Bytes) : Speaks s (reconcileAux query) := by
  refine Guarded.bind (guarded_modify fun _ h => h) fun _ => Guarded.bind (speaks_call (getByte_throws _)) fun r => ?_
  split
  split_ifs
  · exact guarded_throw (spoken_err (by decide))
  · refine guarded_get fun _ _ => ?_
    split_ifs
    · exact guarded_throw (spoken_err (by simp))
    · exact guarded_pure _
  · exact Guarded.bind (storageSize_speaks hs) fun _ => Guarded.bind (reconcileLoop_speaks hs _ _ _) fun _ => guarded_pure _

theorem initiate_speaks : Speaks s (initiate (σ := σ)) := by
  refine guarded_get fun _ _ => ?_
  split_ifs
  · exact guarded_throw (spoken_err (by decide))
  · exact Guarded.bind (guarded_modify fun _ h => h) fun _ => Guarded.bind (storageSize_speaks hs) fun _ =>
      Guarded.bind (splitRange_speaks hs _ _ _) fun _ => guarded_pure _

theorem reconcile_speaks (query : Bytes) : Speaks s (reconcile query) := by
  refine guarded_get fun _ _ => ?_
  split_ifs
  · exact guarded_throw (spoken_err (by decide))
  · exact Guarded.bind (reconcileAux_speaks hs query) fun _ => guarded_pure _

theorem reconcileHaveNeed_speaks (query : Bytes) : Speaks s (reconcileHaveNeed query) := by
  refine guarded_get fun _ _ => ?_
  split_ifs
  · exact Guarded.bind (reconcileAux_speaks hs query) fun _ => guarded_pure _
  · exact guarded_throw (spoken_err (by decide))

end

end Negentropy

/-! ### The storages -/

/-- A tree that is one, wherever its nodes are. -/
theorem BTree.Represents.tame [Sha256] {τ : Type} [BTree.NodeStore τ] {cfg : BTree.Config} [BTree.LawfulNodeStore cfg τ] {t : τ}
    {levels : List (List (Levels.Entry Item))} {xs : List Item} (h : BTree.Represents cfg t levels xs) :
    @Tame τ ⟨BTree.size, BTree.getItem, BTree.iterate, BTree.findLowerBound, BTree.fingerprint⟩ t := by
  have hbad {α : Type} : Throws Err.Spoken (.error (.err "bad range") : Except Err α) := throws_error (spoken_err (by decide))
  have hiterate {α : Type} (b e : ℕ) (cb : α → Item → ℕ → α × Bool) (st : α) : Throws Err.Spoken (BTree.iterate t b e cb st) := by
    by_cases hbe : b ≤ e ∧ e ≤ xs.length
    · rw [h.iterate_ok hbe.1 hbe.2]
      exact throws_ok _
    · simp only [BTree.iterate, h.checkBounds_eq, if_neg hbe, bind, Except.bind]
      exact hbad
  have hfindLowerBound (b e : ℕ) (bound : Bound) : Throws Err.Spoken (BTree.findLowerBound t b e bound) := by
    by_cases hbe : b ≤ e ∧ e ≤ xs.length
    · rw [h.findLowerBound_ok hbe.1 hbe.2]
      exact throws_ok _
    · simp only [BTree.findLowerBound, h.checkBounds_eq, if_neg hbe, bind, Except.bind]
      exact hbad
  have hfingerprint (b e : ℕ) : Throws Err.Spoken (BTree.fingerprint t b e) := by
    by_cases hbe : b ≤ e ∧ e ≤ xs.length
    · rw [h.fingerprint_ok hbe.1 hbe.2]
      exact throws_ok _
    · simp only [BTree.fingerprint, h.checkBounds_eq, if_neg hbe, bind, Except.bind]
      exact hbad
  have hsize : Throws Err.Spoken (BTree.size t) := h.size_ok ▸ throws_ok _
  exact @Tame.mk τ ⟨BTree.size, BTree.getItem, BTree.iterate, BTree.findLowerBound, BTree.fingerprint⟩ t hsize hiterate
    hfindLowerBound hfingerprint

namespace Storage

theorem Vector.tame [Sha256] (v : Vector) : Tame v := by
  have hsealed : Throws Err.Spoken v.checkSealed := by
    rw [checkSealed]
    split_ifs
    · exact throws_ok _
    · exact throws_error (spoken_err (by decide))
  have hbounds (b e : ℕ) : Throws Err.Spoken (v.checkBounds b e) := by
    rw [checkBounds]
    split_ifs
    · exact throws_error (spoken_err (by decide))
    · exact throws_ok _
  have hiterate {α : Type} (b e : ℕ) (cb : α → Item → ℕ → α × Bool) (st : α) : Throws Err.Spoken (v.iterate b e cb st) :=
    hsealed.bind fun _ _ => (hbounds b e).bind fun _ _ => throws_ok _
  exact {
    size := hsealed.bind fun _ _ => throws_ok _
    iterate := hiterate
    findLowerBound := fun b e _ => hsealed.bind fun _ _ => (hbounds b e).bind fun _ _ => throws_ok _
    fingerprint := fun b e => (hiterate b e _ _).bind fun _ _ => throws_ok _ }

theorem SubRange.tame {β : Type} [StorageBase β] {r : SubRange β} (h : Tame r.base) : Tame r := by
  have hbounds (b e : ℕ) : Throws Err.Spoken (r.checkBounds b e) := by
    rw [checkBounds]
    split_ifs
    · exact throws_error (spoken_err (by decide))
    · exact throws_ok _
  exact {
    size := throws_ok _
    iterate := fun b e _ _ => (hbounds b e).bind fun _ _ => h.iterate _ _ _ _
    findLowerBound := fun b e _ => (hbounds b e).bind fun _ _ => (h.findLowerBound _ _ _).bind fun _ _ => throws_ok _
    fingerprint := fun b e => (hbounds b e).bind fun _ _ => h.fingerprint _ _ }

/-- The storages that a caller can have: a vector, sealed or not; a tree that some history has left, in memory or in a table;
a window of a storage, whatever has happened to that since. -/
inductive Usable [Sha256] : (σ : Type) → StorageBase σ → σ → Prop where
  | vector (v : Vector) : Usable Vector inferInstance v
  | btreeMem {cfg : BTree.Config} (ops : List BTreeMem.Op) (t : BTreeMem cfg)
      (hrun : BTreeMem.run {} ops = .ok (BTreeMem.answers ∅ ops, t)) : Usable (BTreeMem cfg) inferInstance t
  | btreeLMDB {cfg : BTree.Config} {α : Type} (events : List (Event α)) (hallowed : Allowed ∅ events) (treeId : UInt64)
      (t : BTreeLMDB cfg) (hlive : (Program.run cfg {} events).2.object cfg treeId = some t) :
      Usable (BTreeLMDB cfg) inferInstance t
  | subRange {σ : Type} {inst : StorageBase σ} (r : SubRange σ) (h : Usable σ inst r.base) :
      Usable (SubRange σ) inferInstance r

theorem Usable.tame [Sha256] {σ : Type} {inst : StorageBase σ} {s : σ} (h : Usable σ inst s) : Tame s := by
  induction h with
  | vector v => exact v.tame
  | btreeMem ops t hrun =>
    obtain ⟨t', levels, xs, hrun', hrep, -⟩ := BTreeMem.reachable _ ops
    obtain rfl : t = t' := (Prod.mk.inj (Except.ok.inj (hrun.symm.trans hrun'))).2
    exact hrep.tame
  | btreeLMDB events hallowed treeId t hlive =>
    obtain ⟨live, -, hmatches, -⟩ := Program.Matches.run Program.matches_empty (by simpa using hallowed : Allowed ∅ (events ++ []))
    obtain ⟨xs, levels, ⟨levels', hrep⟩, -⟩ := hmatches.alike treeId
    rw [Program.tree, hlive, Option.getD_some] at hrep
    let lawful := BTreeLMDB.storage t
    exact hrep.tame
  | subRange r _ ih => exact SubRange.tame ih

end Storage

/-- Whatever bytes come in and whatever the state of the object is: over a storage that a caller can have, a method returns or
throws an exception of the library, with a text. It never runs into a null pointer or an index that is out of range, and it leaves
the storage alone. -/
theorem Negentropy.only_throws_err [Sha256] {σ : Type} [StorageBase σ] {s : σ} (h : Storage.Usable σ inferInstance s) :
    Speaks s (initiate (σ := σ)) ∧ ∀ query, Speaks s (reconcile query) ∧ Speaks s (reconcileHaveNeed query) :=
  ⟨initiate_speaks h.tame, fun query => ⟨reconcile_speaks h.tame query, reconcileHaveNeed_speaks h.tame query⟩⟩

section

local instance exceptionsSha256 : Sha256 := SHA256.real

/-- A message that ends within a varint. -/
theorem only_throws_err_truncated :
    ∃ msg ne', Negentropy.reconcile [0x61, 0x80] (⟨⟨[], true⟩, 0, limit_ok_none, false, 7, 9⟩ : Negentropy Storage.Vector) =
      .error (.err msg) ne' ∧ msg ≠ "" ∧ ne'.storage = ⟨[], true⟩ := by
  obtain ⟨e, ne', he⟩ : ∃ e ne', Negentropy.reconcile [0x61, 0x80]
      (⟨⟨[], true⟩, 0, limit_ok_none, false, 7, 9⟩ : Negentropy Storage.Vector) = .error e ne' := ⟨_, _, rfl⟩
  obtain ⟨-, hspeaks⟩ := Negentropy.only_throws_err (Storage.Usable.vector ⟨[], true⟩)
  obtain ⟨hstorage, msg, rfl, hmsg⟩ := ((hspeaks [0x61, 0x80]).1 _ rfl).2 e ne' he
  exact ⟨msg, ne', he, hmsg, hstorage⟩

end

end NE
