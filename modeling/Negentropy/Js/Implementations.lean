import Negentropy.Interchange
import Negentropy.Js.Replies

/-! The two implementations, over sealed vectors of the same items. -/

namespace NE.Js

open Sorted Stateful

theorem ofU64_small {mode : UInt64} (h : mode.toNat < 2 ^ 31) :
    NE.Mode.ofU64 mode = if mode.toNat = 0 then some .skip else if mode.toNat = 1 then some .fingerprint
      else if mode.toNat = 2 then some .idList else none := by
  have hmode : ∀ n : UInt32, mode.toUInt32 = n ↔ mode.toNat = n.toNat := fun n => by
    rw [← UInt32.toNat_inj, UInt64.toNat_toUInt32, Nat.mod_eq_of_lt (h.trans (by decide))]
  unfold NE.Mode.ofU64
  split
  · next h0 =>
    rw [(hmode 0).mp h0]
    rfl
  · next h1 =>
    rw [(hmode 1).mp h1]
    rfl
  · next h2 =>
    rw [(hmode 2).mp h2]
    rfl
  · next h0 h1 h2 =>
    have h0' : mode.toNat ≠ 0 := fun hn => h0 ((hmode 0).mpr hn)
    have h1' : mode.toNat ≠ 1 := fun hn => h1 ((hmode 1).mpr hn)
    have h2' : mode.toNat ≠ 2 := fun hn => h2 ((hmode 2).mpr hn)
    rw [if_neg h0', if_neg h1', if_neg h2']

/-! ### The loop -/

/-- The objects are alike: the same items, limits and roles. -/
structure Alike (ne : NE.Negentropy NE.Storage.Vector) (js : Negentropy NegentropyStorageVector) : Prop where
  storage : js.storage = ofVector ne.storage
  limit : js.frameSizeLimit = ne.frameSizeLimit
  role : js.isInitiator = ne.isInitiator

theorem Twin.alike {input : Bytes} {ne : NE.Negentropy NE.Storage.Vector} {i o : UInt64} {unread : Bytes}
    {s : Run NegentropyStorageVector} (h : Twin input ne i o unread s) : Alike ne s.ne :=
  ⟨h.storage, h.limit, h.role⟩

section
variable [Sha256] {input : Bytes} (hlt : input.length < 2 ^ 53) {ne : NE.Negentropy NE.Storage.Vector} {i o : UInt64}
  {unread : Bytes} {s : Run NegentropyStorageVector} (hv : SmallVector ne.storage)
  (st : NE.Negentropy.ReconcileState) (hquery : st.query = unread)
include hlt hv hquery

theorem Twin.reconcileRange (h : Twin input ne i o unread s) (hi : SmallTimestamp i)
    (hst : Recorded.UpTo ne ne.storage.items st (ne.at i o)) {n : ℕ} (hne : unread ≠ [])
    (hsmall : smallRanges (n + 1) (finite i) unread = true) :
    Lockstep (fun r r' c t => ∃ i' rest, SmallTimestamp i' ∧ smallRanges n (finite i') rest = true ∧
        rest.length < unread.length ∧ Ended input ne st i' rest r r' c t)
      ((NE.Negentropy.reconcileRange ne.storage.items.length st :
        NE.Method NE.Storage.Vector (NE.Negentropy.ReconcileState × Bool)) (ne.at i o))
      ((Negentropy.reconcileRange ne.storage.items.length (ofState st) :
        Method NegentropyStorageVector (Negentropy.ReconcileState × Bool)) s) := by
  obtain ⟨⟨o₀, hat, ho⟩, hindex, hge⟩ := hst
  obtain rfl : i = st.prevBound.item.timestamp := congrArg NE.Negentropy.lastTimestampIn hat
  obtain rfl : o = o₀ := congrArg NE.Negentropy.lastTimestampOut hat
  have hsome : unread.isEmpty = false := by simpa using hne
  rw [smallRanges, hsome, Bool.false_or] at hsmall
  unfold NE.Negentropy.reconcileRange Negentropy.reconcileRange
  rw [hquery]
  refine (h.decodeBound hlt hi hsmall).bind fun p b c t hread => ?_
  obtain ⟨rfl, hle, hcurr, hsmall, hlen, rfl, ht⟩ := hread
  obtain ⟨currBound, rest⟩ := p
  dsimp only at hle hcurr hsmall hlen ht ⊢
  refine (ht.decodeVarInt hlt hsmall).bind fun mode m c t hread => ?_
  obtain ⟨rfl, hmode, hsmall, hlen', rfl, ht⟩ := hread
  obtain ⟨mode, rest'⟩ := mode
  dsimp only at hmode hsmall hlen' ht ⊢
  obtain ⟨upper, hupper, hfound⟩ := NE.Storage.Vector.found hv.isSealed hv.sorted hindex currBound
  have hfind : (NE.Negentropy.findLowerBound st.prevIndex ne.storage.items.length currBound : NE.Method NE.Storage.Vector ℕ)
      (ne.at currBound.item.timestamp o) = .ok upper (ne.at currBound.item.timestamp o) := by
    simp only [NE.Negentropy.findLowerBound, bind_eq_ok, get_eq_ok, call_eq_ok]
    exact ⟨_, _, ⟨rfl, rfl⟩, hupper, rfl⟩
  have hfind' := ht.findLowerBound hv hindex currBound
  rw [← Except.ok.inj (hupper.symm.trans (NE.Storage.Vector.findLowerBound_eq hv.isSealed hv.sorted hindex le_rfl currBound))]
    at hfind'
  rw [bind_of_ok hfind, show (ofState st).prevIndex = st.prevIndex from rfl, bind_of_ok hfind', ofU64_small hmode]
  have hshort : ∀ {rest'' : Bytes}, rest''.length ≤ rest'.length → rest''.length < unread.length := by omega
  by_cases h0 : mode.toNat = 0
  · rw [if_pos h0] at hsmall
    rw [if_pos h0, if_pos (by rw [h0]; rfl)]
    refine (ht.finishRange hv hfound.le_length currBound [] { st with query := rest', skip := true } rfl).mono
      fun r r' c t hended => ?_
    exact ⟨_, _, hcurr, hsmall, hshort le_rfl, hended⟩
  by_cases h1 : mode.toNat = 1
  · rw [if_neg h0, if_pos h1] at hsmall
    have h0' : ¬ (mode.toNat : ℤ) = Mode.skip := by rw [h1]; decide
    rw [if_neg h0, if_pos h1, if_neg h0', if_pos (by rw [h1]; rfl)]
    refine (ht.reconcileFingerprint hlt hv { st with query := rest' } rfl hfound hge hi hcurr ho hle hsmall).mono
      fun r r' c t hended => ?_
    obtain ⟨rest'', hgood, hle', hended⟩ := hended
    exact ⟨_, _, hcurr, hgood, hshort hle', hended⟩
  by_cases h2 : mode.toNat = 2
  · rw [if_neg h0, if_neg h1, if_pos h2] at hsmall
    have h0' : ¬ (mode.toNat : ℤ) = Mode.skip := by rw [h2]; decide
    have h1' : ¬ (mode.toNat : ℤ) = Mode.fingerprint := by rw [h2]; decide
    rw [if_neg h0, if_neg h1, if_pos h2, if_neg h0', if_neg h1', if_pos (by rw [h2]; rfl)]
    refine (ht.reconcileIdList hlt hv { st with query := rest' } rfl hfound hge hi hcurr ho hle hsmall).mono
      fun r r' c t hended => ?_
    obtain ⟨rest'', hgood, hle', hended⟩ := hended
    exact ⟨_, _, hcurr, hgood, hshort hle', hended⟩
  · rw [if_neg h0, if_neg h1, if_neg h2, if_neg (by unfold Mode.skip; omega), if_neg (by unfold Mode.fingerprint; omega),
      if_neg (by unfold Mode.idList; omega)]
    exact .error

/-- The loop of JavaScript ends, and in step with the other one. -/
theorem Twin.reconcileLoop (n m k : ℕ) (hn : unread.length ≤ n) (hm : unread.length < m) (hk : unread.length ≤ k)
    (h : Twin input ne i o unread s) (hi : SmallTimestamp i) (hst : Recorded.UpTo ne ne.storage.items st (ne.at i o))
    (hsmall : smallRanges k (finite i) unread = true) :
    Lockstep (fun r r' _ t => r' = ofState r ∧ Alike ne t.ne ∧
          (ne.isInitiator = false → r.haveIds = st.haveIds ∧ r.needIds = st.needIds))
        ((NE.Negentropy.reconcileLoop ne.storage.items.length n st :
          NE.Method NE.Storage.Vector NE.Negentropy.ReconcileState) (ne.at i o))
        ((Negentropy.reconcileLoop ne.storage.items.length m (ofState st) :
          Method NegentropyStorageVector Negentropy.ReconcileState) s) ∧
      ∀ u, (Negentropy.reconcileLoop ne.storage.items.length m (ofState st) :
        Method NegentropyStorageVector Negentropy.ReconcileState) s ≠ .error .running u := by
  have hlen := h.length_eq
  obtain ⟨m, rfl⟩ : ∃ m', m = m' + 1 := Nat.exists_eq_succ_of_ne_zero (by omega)
  induction n generalizing m k i o unread s st with
  | zero =>
    obtain rfl : unread = [] := List.length_eq_zero_iff.mp (by omega)
    have hjs : (Negentropy.reconcileLoop ne.storage.items.length (m + 1) (ofState st) :
        Method NegentropyStorageVector Negentropy.ReconcileState) s = .ok (ofState st) s := by
      rw [reconcileLoop_succ, if_pos (by simpa using hlen)]
    rw [hjs]
    exact ⟨.ok ⟨rfl, h.alike, fun _ => ⟨rfl, rfl⟩⟩, fun u hu => by cases hu⟩
  | succ n ih =>
    rw [reconcileLoop_succ]
    by_cases hnil : unread = []
    · subst hnil
      rw [NE.Negentropy.reconcileLoop, if_pos hquery, if_pos (by simpa using hlen)]
      exact ⟨.ok ⟨rfl, h.alike, fun _ => ⟨rfl, rfl⟩⟩, fun u hu => by cases hu⟩
    · have hpos : 0 < unread.length := List.length_pos_iff.mpr hnil
      obtain ⟨k, rfl⟩ : ∃ k', k = k' + 1 := Nat.exists_eq_succ_of_ne_zero (by omega)
      have h' : Twin input ne i o unread { s with heads := s.heads ++ [s.query] } :=
        ⟨⟨h.sound.unread, h.sound.counts, h.sound.exact⟩, h.raw, h.storage, h.limit, h.role, h.lastIn, h.lastOut⟩
      have hstep := h'.reconcileRange hlt hv st hquery hi hst hnil hsmall
      have hup := Recorded.records_reconcileRange ne hv.reads hv.sorted
        (fun lower hl bound => NE.Storage.Vector.found hv.isSealed hv.sorted hl bound) hst
      rw [NE.Negentropy.reconcileLoop, if_neg (by rwa [hquery]), if_neg (by omega)]
      have herr := (onward_reconcileRange hlt ne.storage.items.length (ofState st)
        { s with heads := s.heads ++ [s.query] }).2
      generalize hr : (NE.Negentropy.reconcileRange ne.storage.items.length st :
        NE.Method NE.Storage.Vector (NE.Negentropy.ReconcileState × Bool)) (ne.at i o) = r at hstep
      generalize hr' : (Negentropy.reconcileRange ne.storage.items.length (ofState st) :
        Method NegentropyStorageVector (Negentropy.ReconcileState × Bool)) { s with heads := s.heads ++ [s.query] } = r' at hstep
      cases hstep with
      | error =>
        rw [bind_of_error hr, bind_of_error hr']
        refine ⟨.error, fun u hu => ?_⟩
        cases hu
        exact herr _ _ hr' rfl
      | @ok x x' c t hstep =>
        obtain ⟨i', rest, hi', hsmall', hless, rfl, hquery', hserver, o', rfl, ht⟩ := hstep
        obtain ⟨st', stop⟩ := x
        rw [bind_of_ok hr, bind_of_ok hr']
        cases stop with
        | true => exact ⟨.ok ⟨rfl, ht.alike, hserver⟩, fun u hu => by cases hu⟩
        | false =>
          obtain ⟨log, hlog⟩ := (Recorded.erases_reconcileRange _ _).exists_log hr []
          have hst' := (hup [] (by simp) _ _ _ hlog).2 rfl
          have hlen' := ht.length_eq
          cases m with
          | zero => omega
          | succ m =>
            obtain ⟨hrest, hrun⟩ := ih st' hquery' k (by omega) (by omega) ht hi' hst' hsmall' hlen' m (by omega)
            refine ⟨hrest.mono fun r r' c t hr => ⟨hr.1, hr.2.1, fun hinit => ?_⟩, hrun⟩
            obtain ⟨hhave, hneed⟩ := hr.2.2 hinit
            obtain ⟨hhave', hneed'⟩ := hserver hinit
            exact ⟨hhave.trans hhave', hneed.trans hneed'⟩

end

/-! ### Calls -/

section
variable [Sha256] {ne : NE.Negentropy NE.Storage.Vector} {js : Negentropy NegentropyStorageVector} (h : Alike ne js)
  (hv : SmallVector ne.storage)
include h hv

/-- A call in JavaScript leaves the object alike. -/
theorem Alike.reconcileMessage_alike (query : Uint8Array) (hsmall : smallQuery query.bytes = true) {rounds : ℕ}
    (hrounds : query.bytes.length < rounds) :
    Lockstep (fun r r' _ t => r'.1 = (if r.1.length = 1 ∧ ne.isInitiator then none else some r.1) ∧
          r'.2 = (r.2.1.map ItemId.bytes, r.2.2.map ItemId.bytes) ∧
          (ne.isInitiator = false → r.2 = ([], [])) ∧ Alike ne t.ne)
        (NE.Negentropy.reconcileAux query.bytes ne) (js.reconcile rounds query) ∧
      ∀ u, js.reconcile rounds query ≠ .error .running u := by
  set s : Run NegentropyStorageVector := { ne := js, query := .ofArray query } with hs
  set s₀ : Run NegentropyStorageVector := { s with ne := { s.ne with lastTimestampIn := 0, lastTimestampOut := 0 } } with hs₀
  have hmodify : (modify fun s => { s with ne := { s.ne with lastTimestampIn := 0, lastTimestampOut := 0 } } :
      Method NegentropyStorageVector PUnit) s = .ok ⟨⟩ s₀ := rfl
  have hmodify' : (modify fun ne => { ne with lastTimestampIn := 0, lastTimestampOut := 0 } :
      NE.Method NE.Storage.Vector PUnit) ne = .ok ⟨⟩ (ne.at 0 0) := rfl
  have htwin : Twin query.bytes ne 0 0 query.bytes s₀ :=
    ⟨⟨List.suffix_rfl, rfl, by simp [hs₀, hs]⟩, rfl, h.storage, h.limit, h.role, rfl, rfl⟩
  change Lockstep _ _ (Negentropy.reconcileMessage rounds s) ∧ ∀ u, Negentropy.reconcileMessage rounds s ≠ .error .running u
  rw [NE.Negentropy.reconcileAux, Negentropy.reconcileMessage, bind_of_ok hmodify, bind_of_ok hmodify']
  dsimp only
  cases hquery : query.bytes with
  | nil =>
    rw [hquery] at htwin
    have hbyte : (getByte : Method NegentropyStorageVector UInt8) s₀ =
        .error (.thrown (.error "parse ends prematurely")) s₀ := by
      rw [getByte]
      exact bind_of_error (htwin.getBytes_error (Nat.zero_lt_one))
    rw [bind_of_error hbyte]
    exact ⟨.error, fun u hu => by cases hu⟩
  | cons version raw =>
    have hlt := query.length_lt
    rw [hquery] at hsmall hrounds hlt htwin
    obtain ⟨t, hget, ht⟩ := htwin.getBytes_ok hlt (n := 1) (by simp)
    have hbyte : (getByte : Method NegentropyStorageVector UInt8) s₀ = .ok version t := by
      rw [getByte]
      exact bind_of_ok hget
    have hbyte' : (NE.call (NE.getByte (version :: raw)) : NE.Method NE.Storage.Vector (UInt8 × Bytes)) (ne.at 0 0) =
        .ok (version, raw) (ne.at 0 0) := rfl
    have hrole : (get : Method NegentropyStorageVector _) t = .ok t t := rfl
    have hrole' : (get : NE.Method NE.Storage.Vector _) (ne.at 0 0) = .ok (ne.at 0 0) (ne.at 0 0) := rfl
    rw [bind_of_ok hbyte, bind_of_ok hbyte']
    dsimp only
    split
    · exact ⟨.error, fun u hu => by cases hu⟩
    · rw [show (NE.PROTOCOL_VERSION) = PROTOCOL_VERSION from rfl]
      split
      · rw [bind_of_ok hrole, bind_of_ok hrole', ht.role]
        change Lockstep _ ((if ne.isInitiator = true then _ else _ : NE.Method NE.Storage.Vector _) _) _ ∧ _
        cases hinit : ne.isInitiator with
        | true => exact ⟨.error, fun u hu => by cases hu⟩
        | false => exact ⟨.ok ⟨rfl, rfl, fun _ => rfl, ht.alike⟩, fun u hu => by cases hu⟩
      · next hversion =>
        rw [bind_of_ok (storageSize_eq hv.reads 0 0), bind_of_ok (ht.storageSize hv)]
        have hstart : ({ fullOutput := [PROTOCOL_VERSION] } : Negentropy.ReconcileState) =
            ofState { query := raw, fullOutput := [PROTOCOL_VERSION] } := by
          unfold ofState
          rw [show Bound.zero = Bound.ofTimestamp 0 from rfl, ofBound_ofTimestamp]
          rfl
        have hup : Recorded.UpTo ne ne.storage.items { query := raw, fullOutput := [PROTOCOL_VERSION] } (ne.at 0 0) :=
          ⟨⟨0, rfl, UInt64.le_refl 0⟩, Nat.zero_le _, fun _ _ _ => UInt64.zero_le⟩
        have hbound : SmallTimestamp 0 := fun _ => by decide
        have hranges : smallRanges (version :: raw).length (finite 0) raw = true := by
          obtain rfl : version = PROTOCOL_VERSION := not_not.mp hversion
          have hfinite : finite 0 = some 0 := rfl
          simpa [smallQuery, hfinite] using hsmall
        obtain ⟨hloop, hrun⟩ := Twin.reconcileLoop hlt hv { query := raw, fullOutput := [PROTOCOL_VERSION] } rfl
          raw.length rounds _ le_rfl ((Nat.lt_succ_self _).trans hrounds) (Nat.le_succ _) ht hbound hup hranges
        rw [hstart]
        refine ⟨hloop.bind fun st st' c u hst => ?_, fun u hu => ?_⟩
        · obtain ⟨rfl, halike, hserver⟩ := hst
          have hget : (get : Method NegentropyStorageVector _) u = .ok u u := rfl
          rw [bind_of_ok hget, halike.role]
          refine .ok ⟨rfl, rfl, fun hinit => ?_, halike⟩
          obtain ⟨hhave, hneed⟩ := hserver hinit
          exact Prod.ext hhave hneed
        · cases hjs : (Negentropy.reconcileLoop ne.storage.items.length rounds
              (ofState { query := raw, fullOutput := [PROTOCOL_VERSION] }) :
            Method NegentropyStorageVector Negentropy.ReconcileState) t with
          | error e v =>
            rw [bind_of_error hjs] at hu
            cases hu
            exact hrun _ hjs
          | ok st v =>
            rw [bind_of_ok hjs] at hu
            cases hu

theorem Alike.reconcileMessage (query : Uint8Array) (hsmall : smallQuery query.bytes = true) {rounds : ℕ}
    (hrounds : query.bytes.length < rounds) :
    Lockstep (fun r r' _ _ => r'.1 = (if r.1.length = 1 ∧ ne.isInitiator then none else some r.1) ∧
          r'.2 = (r.2.1.map ItemId.bytes, r.2.2.map ItemId.bytes) ∧
          (ne.isInitiator = false → r.2 = ([], [])))
        (NE.Negentropy.reconcileAux query.bytes ne) (js.reconcile rounds query) ∧
      ∀ u, js.reconcile rounds query ≠ .error .running u := by
  obtain ⟨hstep, hrun⟩ := h.reconcileMessage_alike hv query hsmall hrounds
  exact ⟨hstep.mono fun r r' c t hr => ⟨hr.1, hr.2.1, hr.2.2.1⟩, hrun⟩

end

/-! ### Sealed vectors -/

/-- The vector is sealed and holds exactly these items. -/
structure NegentropyStorageVector.Holds (v : NegentropyStorageVector) (s : Finset NE.Item) : Prop where
  isSealed : v.isSealed = true
  sorted : v.items.Pairwise Item.Before
  mem_iff : ∀ x, x ∈ v.items ↔ ∃ y ∈ s, ofItem y = x

theorem hasDuplicate_false {xs : List Item} (hs : xs.Pairwise (fun a b => a.Before b ∨ a = b))
    (h : NegentropyStorageVector.hasDuplicate xs = false) : xs.Pairwise Item.Before := by
  induction xs with
  | nil => exact List.Pairwise.nil
  | cons x xs ih =>
    cases xs with
    | nil => exact List.pairwise_singleton _ _
    | cons y ys =>
      obtain ⟨hx, hs⟩ := List.pairwise_cons.mp hs
      simp only [NegentropyStorageVector.hasDuplicate, Bool.or_eq_false_iff, beq_eq_false_iff_ne, ne_eq,
        itemCompare_eq_zero_iff] at h
      have hys := ih hs h.2
      have hxy : x.Before y := (hx y List.mem_cons_self).resolve_right h.1
      refine List.pairwise_cons.mpr ⟨fun z hz => ?_, hys⟩
      rcases List.mem_cons.mp hz with rfl | hz
      · exact hxy
      · exact hxy.trans ((List.pairwise_cons.mp hys).1 z hz)

/-- What a call of `seal` that does not throw leaves. -/
theorem NegentropyStorageVector.seal_holds {v w : NegentropyStorageVector} (own : List NE.Item)
    (hitems : v.items = own.map ofItem) (h : v.seal = (.ok (), w)) : w.Holds own.toFinset := by
  unfold NegentropyStorageVector.seal at h
  split at h
  · cases h
  · dsimp only at h
    split at h
    · cases h
    · next hdup =>
      cases h
      refine ⟨rfl, hasDuplicate_false (sort_sorted v.items) (by simpa using hdup), fun x => ?_⟩
      rw [List.mem_mergeSort, hitems, List.mem_map]
      simp only [List.mem_toFinset]

/-- Two sealed vectors that hold the same items are in step. -/
theorem eq_ofVector {v : NE.Storage.Vector} {js : NegentropyStorageVector} {s : Finset NE.Item} (hv : v.Holds s)
    (hjs : js.Holds s) : js = ofVector v := by
  have hsorted : (v.items.map ofItem).Pairwise Item.Before :=
    List.pairwise_map.mpr (hv.sorted.imp fun h => (before_ofItem_iff _ _).mpr h)
  have hmem : ∀ x, x ∈ js.items ↔ x ∈ v.items.map ofItem := by
    intro x
    rw [hjs.mem_iff, List.mem_map, ← hv.toFinset]
    simp only [List.mem_toFinset]
  have hne : ∀ {xs : List Item}, xs.Pairwise Item.Before → xs.Nodup := by
    intro xs h
    refine List.Pairwise.imp (fun {a b} hab heq => ?_) h
    exact Item.Before.irrefl b (heq ▸ hab)
  have hperm : js.items.Perm (v.items.map ofItem) := (List.perm_ext_iff_of_nodup (hne hjs.sorted) (hne hsorted)).mpr hmem
  have heq : js.items = v.items.map ofItem := by
    refine hperm.eq_of_pairwise (fun a b _ _ hab hba => ?_) hjs.sorted hsorted
    exact absurd (hab.trans hba) (Item.Before.irrefl a)
  obtain ⟨items, isSealed⟩ := js
  have hflag : isSealed = v.isSealed := hjs.isSealed.trans hv.isSealed.symm
  simp only at heq
  rw [heq, hflag]
  rfl

/-! ### The same protocol -/

/-- Both have returned, and `P` holds of what, or both have thrown. -/
def BothEnd {σ τ α β : Type} (P : α → β → Prop) : EStateM.Result Err σ α → EStateM.Result Stop τ β → Prop
  | .ok a _, .ok b _ => P a b
  | .error _ _, .error (.thrown _) _ => True
  | _, _ => False

theorem Lockstep.bothEnd {σ τ α β : Type} {P : α → β → σ → τ → Prop} {Q : α → β → Prop} {r : EStateM.Result Err σ α}
    {r' : EStateM.Result Stop τ β} (h : Lockstep P r r') (hrun : ∀ u, r' ≠ .error .running u)
    (hPQ : ∀ a b t t', P a b t t' → Q a b) : BothEnd Q r r' := by
  cases h with
  | ok h => exact hPQ _ _ _ _ h
  | @error e e' t t' =>
    cases e' with
    | thrown e' => trivial
    | running => exact absurd rfl (hrun t')

/-- A call of `initiate` leaves the objects alike. -/
theorem Alike.initiate_alike [Sha256] {ne : NE.Negentropy NE.Storage.Vector} {js : Negentropy NegentropyStorageVector}
    (h : Alike ne js) (hv : SmallVector ne.storage) (hinit : ne.isInitiator = false)
    (hout : ne.lastTimestampOut = 0) (hin' : js.lastTimestampIn = 0) (hout' : js.lastTimestampOut = 0) :
    ∃ bytes ne' js', NE.Negentropy.initiate ne = .ok bytes ne' ∧ js.initiate = .ok bytes js' ∧ Alike ne' js'.ne := by
  set s : Run NegentropyStorageVector := { ne := js, query := ⟨[], 0⟩ } with hs
  set s' : Run NegentropyStorageVector := { s with ne := { s.ne with isInitiator := true } } with hs'
  have htwin : Twin [] { ne with isInitiator := true } 0 0 [] s' :=
    ⟨⟨List.suffix_rfl, rfl, by simp [hs', hs]⟩, rfl, h.storage, h.limit, rfl, hin', hout'⟩
  have hget : (get : Method NegentropyStorageVector _) s = .ok s s := rfl
  have hmodify : (modify fun s => { s with ne := { s.ne with isInitiator := true } } :
      Method NegentropyStorageVector PUnit) s = .ok ⟨⟩ s' := rfl
  have hinf : bound MAX_VALUE = ofBound (Bound.ofTimestamp MAX_U64) := by rw [ofBound_ofTimestamp, number_max]
  have hwin : ∀ j, 0 ≤ j → j < ne.storage.items.length → 0 ≤ Recorded.tsAt ne.storage.items j ∧
      Recorded.tsAt ne.storage.items j ≤ (Bound.ofTimestamp MAX_U64).item.timestamp := fun j _ _ =>
    ⟨UInt64.zero_le, UInt64.le_iff_toNat_le.mpr (Nat.le_of_lt_succ (Recorded.tsAt ne.storage.items j).toNat_lt)⟩
  have hv' : SmallVector ({ ne with isInitiator := true } : NE.Negentropy NE.Storage.Vector).storage := hv
  obtain ⟨t, hjs, ht⟩ := htwin.splitRange hv' (Nat.zero_le _) le_rfl (codable_infinity 0) UInt64.zero_le hwin
  refine ⟨_, _, t, initiate_eq hv.reads hinit, ?_, ht.storage, ht.limit, ht.role⟩
  change Negentropy.initiateMessage s = _
  rw [Negentropy.initiateMessage, bind_of_ok hget, if_neg (by simp [hs, h.role, hinit]), bind_of_ok hmodify,
    bind_of_ok (htwin.storageSize hv'), hinf, bind_of_ok hjs, hout]
  rfl

theorem Alike.initiate [Sha256] {ne : NE.Negentropy NE.Storage.Vector} {js : Negentropy NegentropyStorageVector}
    (h : Alike ne js) (hv : SmallVector ne.storage) (hinit : ne.isInitiator = false)
    (hout : ne.lastTimestampOut = 0) (hin' : js.lastTimestampIn = 0) (hout' : js.lastTimestampOut = 0) :
    ∃ bytes ne' js', NE.Negentropy.initiate ne = .ok bytes ne' ∧ js.initiate = .ok bytes js' := by
  obtain ⟨bytes, ne', js', hcpp, hjs, -⟩ := h.initiate_alike hv hinit hout hin' hout'
  exact ⟨bytes, ne', js', hcpp, hjs⟩

/-- Over sealed vectors of the same items with small timestamps, and on queries with small numbers in them, both
implementations say the same. -/
theorem implementations_agree [Sha256] {s : Finset NE.Item} (hcard : s.card < 2 ^ 31)
    (hts : ∀ x ∈ s, x.timestamp.toNat < 2 ^ 31 - 1) {v : NE.Storage.Vector} {w : NegentropyStorageVector} (hv : v.Holds s)
    (hw : w.Holds s) :
    (∀ (frameSizeLimit : ℕ) (ne : NE.Negentropy NE.Storage.Vector) (js : Negentropy NegentropyStorageVector),
      NE.Negentropy.make v frameSizeLimit = .ok ne → Negentropy.make w frameSizeLimit = .ok js →
      ∃ bytes ne' js', NE.Negentropy.initiate ne = .ok bytes ne' ∧ js.initiate = .ok bytes js') ∧
    ∀ (ne : NE.Negentropy NE.Storage.Vector) (js : Negentropy NegentropyStorageVector), ne.storage = v → js.storage = w →
      js.frameSizeLimit = ne.frameSizeLimit → js.isInitiator = ne.isInitiator →
      ∀ (query : Uint8Array) (rounds : ℕ), smallQuery query.bytes = true → query.bytes.length < rounds →
        (ne.isInitiator = false →
          BothEnd (fun output r => r = (some output, [], [])) (NE.Negentropy.reconcile query.bytes ne)
            (js.reconcile rounds query)) ∧
        (ne.isInitiator = true →
          BothEnd (fun r r' => r'.1 = r.1 ∧ r'.2.1 = r.2.1.map ItemId.bytes ∧ r'.2.2.Perm (r.2.2.map ItemId.bytes))
            (NE.Negentropy.reconcileHaveNeed query.bytes ne) (js.reconcile rounds query)) := by
  have hsmall : SmallVector v := by
    refine ⟨hv.isSealed, hv.sorted, ?_, fun x hx => hts x ?_⟩
    · rwa [NE.Storage.length_eq hv.sorted hv.toFinset]
    · rw [← hv.toFinset]
      exact List.mem_toFinset.mpr hx
  have heq := eq_ofVector hv hw
  refine ⟨fun frameSizeLimit ne js hne hjs => ?_, fun ne js hne hjs hlimit hrole query rounds hquery hrounds => ?_⟩
  · unfold NE.Negentropy.make at hne
    unfold Negentropy.make at hjs
    split at hne
    · next hok =>
      rw [dif_pos hok] at hjs
      cases hne
      cases hjs
      exact Alike.initiate ⟨heq, rfl, rfl⟩ hsmall rfl rfl rfl rfl
    · cases hne
  subst hne hjs
  have hget : (get : NE.Method NE.Storage.Vector _) ne = .ok ne ne := rfl
  obtain ⟨hmessage, hrun⟩ := Alike.reconcileMessage ⟨heq, hlimit, hrole⟩ hsmall query hquery hrounds
  constructor
  · intro hinit
    rw [NE.Negentropy.reconcile, bind_of_ok hget, if_neg (by simp [hinit])]
    refine Lockstep.bothEnd (P := fun output r' _ _ => r' = (some output, [], [])) ?_ hrun fun _ _ _ _ h => h
    refine hmessage.bind_left fun r r' t t' hr => .ok ?_
    obtain ⟨houtput, hids, hserver⟩ := hr
    obtain ⟨output, ids⟩ := r
    obtain ⟨output', ids'⟩ := r'
    simp only at houtput hids hserver ⊢
    rw [houtput, hids, hserver hinit, hinit, if_neg (by simp)]
    rfl
  · intro hinit
    rw [NE.Negentropy.reconcileHaveNeed, bind_of_ok hget, if_neg (by simp [hinit])]
    refine Lockstep.bothEnd (P := fun r r' _ _ => r'.1 = r.1 ∧ r'.2.1 = r.2.1.map ItemId.bytes ∧
      r'.2.2.Perm (r.2.2.map ItemId.bytes)) ?_ hrun fun _ _ _ _ h => h
    refine hmessage.bind_left fun r r' t t' hr => .ok ?_
    obtain ⟨houtput, hids, -⟩ := hr
    obtain ⟨output, ids⟩ := r
    obtain ⟨output', ids'⟩ := r'
    simp only at houtput hids ⊢
    rw [houtput, hids, hinit]
    exact ⟨by simp, rfl, .refl _⟩

section

local instance implementationsSha256 : Sha256 := SHA256.real

/-- `addItem` of 33 items, and `seal`. -/
theorem sample_seal : ({ items := (itemsAt (List.range 33)).map ofItem } : NegentropyStorageVector).seal =
    (.ok (), ⟨(itemsAt (List.range 33)).map ofItem, true⟩) := by
  have hsorted : ((itemsAt (List.range 33)).map ofItem).Pairwise (fun a b => decide (itemCompare a b ≤ 0) = true) := by
    refine List.pairwise_map.mpr ((itemsAt_sorted List.pairwise_lt_range (by decide)).imp fun h => decide_eq_true ?_)
    exact (itemCompare_le_iff _ _).mpr (.inl ((before_ofItem_iff _ _).mpr h))
  rw [NegentropyStorageVector.seal, if_neg Bool.false_ne_true, List.mergeSort_of_pairwise hsorted]
  exact if_neg (by decide +kernel)

/-- A list of ids for the first item, and a fingerprint of the others that is not theirs. -/
def splitText : Bytes := [0x61, 2, 0, 2, 1] ++ (sampleItem 9 0).id.bytes ++ [0, 0, 1] ++ List.replicate 16 0

theorem splitText_lt : splitText.length < 2 ^ 53 := by decide

/-- Two servers, whose replies are an id and a split. -/
theorem implementations_agree_many :
    let ne : NE.Negentropy NE.Storage.Vector :=
      { storage := ⟨itemsAt (List.range 33), true⟩, frameSizeLimit := 0, limit_ok := limit_ok_none }
    let js : Negentropy NegentropyStorageVector :=
      { storage := ⟨(itemsAt (List.range 33)).map ofItem, true⟩, frameSizeLimit := 0, limit_ok := limit_ok_none }
    (∃ bytes ne' js', NE.Negentropy.initiate ne = .ok bytes ne' ∧ js.initiate = .ok bytes js') ∧
      ∃ output ne' js', output.length = 341 ∧ NE.Negentropy.reconcile splitText ne = .ok output ne' ∧
        js.reconcile 60 ⟨splitText, splitText_lt⟩ = .ok (some output, [], []) js' := by
  intro ne js
  have hsorted : ne.storage.items.Pairwise (· < ·) := itemsAt_sorted List.pairwise_lt_range (by decide)
  have hv : ne.storage.Holds ne.storage.items.toFinset := ⟨rfl, hsorted, rfl⟩
  have hjs := NegentropyStorageVector.seal_holds ne.storage.items rfl sample_seal
  have hcard := ne.storage.items.toFinset_card_le.trans_lt ((List.length_map _).trans_lt (show 33 < 2 ^ 31 by decide))
  have hts : ∀ x ∈ ne.storage.items, x.timestamp.toNat < 2 ^ 31 - 1 := fun x hx =>
    (itemsAt_small (by decide) x hx).toNat_lt.trans (by decide)
  obtain ⟨hinitiate, hreconcile⟩ := implementations_agree hcard (fun x hx => hts x (List.mem_toFinset.mp hx)) hv hjs
  refine ⟨hinitiate 0 ne js rfl rfl, ?_⟩
  have hend := (hreconcile ne js rfl rfl rfl rfl ⟨splitText, splitText_lt⟩ 60 (by decide +kernel) (by decide)).1 rfl
  have hlength : (returned (NE.Negentropy.reconcile splitText ne)).map List.length = some 341 := by decide +kernel
  cases hcpp : NE.Negentropy.reconcile splitText ne with
  | error e ne' =>
    rw [hcpp] at hlength
    cases hlength
  | ok output ne' =>
    rw [hcpp] at hend hlength
    cases hrun : js.reconcile 60 ⟨splitText, splitText_lt⟩ with
    | error e js' =>
      rw [hrun] at hend
      exact hend.elim
    | ok r js' =>
      rw [hrun] at hend
      exact ⟨output, ne', js', Option.some.inj hlength, rfl, by rw [show r = _ from hend]⟩

end

end NE.Js
