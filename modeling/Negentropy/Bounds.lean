import Negentropy.Messages

/-! Bounds on the wire, one after the other: each is written and read relative to the one
before it, and the two sides stay in step. -/

namespace NE

open Stateful Negentropy

/-- `encodeBound` on each bound in turn. -/
def encodeBounds {σ : Type} : List Bound → Method σ Bytes
  | [] => return []
  | bound :: bounds => do
      let o ← encodeBound bound
      return o ++ (← encodeBounds bounds)

/-- `decodeBound` as many times as there are bounds to read. -/
def decodeBounds {σ : Type} : ℕ → Bytes → Method σ (List Bound × Bytes)
  | 0, encoded => return ([], encoded)
  | n + 1, encoded => do
      let (bound, encoded) ← decodeBound encoded
      let (bounds, encoded) ← decodeBounds n encoded
      return (bound :: bounds, encoded)

/-- What the calls of `decodeBound` return that do return, each on bytes of its own. -/
def decodeCalls {σ : Type} : List Bytes → Negentropy σ → List Bound
  | [], _ => []
  | encoded :: inputs, ne =>
      match decodeBound encoded ne with
      | .ok (bound, _) ne => bound :: decodeCalls inputs ne
      | .error _ ne => decodeCalls inputs ne

def boundsBytes : UInt64 → List Bound → Bytes
  | _, [] => []
  | last, bound :: bounds => boundBytes last bound ++ boundsBytes bound.item.timestamp bounds

section
variable {σ : Type} {ne : Negentropy σ}

theorem make_at {s : σ} {limit : ℕ} (h : Negentropy.make s limit = .ok ne) : ne = ne.at 0 0 := by
  unfold Negentropy.make at h
  split at h <;> cases h
  rfl

theorem encodeBounds_eq (ne : Negentropy σ) (bounds : List Bound) (i o : UInt64) :
    ∃ o', encodeBounds bounds (ne.at i o) = .ok (boundsBytes o bounds) (ne.at i o') := by
  induction bounds generalizing o with
  | nil => exact ⟨o, rfl⟩
  | cons b bounds ih =>
    obtain ⟨o', hrest⟩ := ih b.item.timestamp
    refine ⟨o', ?_⟩
    rw [encodeBounds]
    refine (bind_of_ok (encodeBound_eq ne i o b)).trans ((bind_of_ok hrest).trans ?_)
    rfl

/-- What was written is read back, from the same timestamp on. -/
theorem decodeBounds_boundsBytes (ne : Negentropy σ) (bounds : List Bound) (last o : UInt64) (t : Bytes)
    (hmono : (last :: bounds.map (·.item.timestamp)).Pairwise (· ≤ ·)) :
    ∃ i', decodeBounds bounds.length (boundsBytes last bounds ++ t) (ne.at last o) = .ok (bounds, t) (ne.at i' o) := by
  induction bounds generalizing last with
  | nil => exact ⟨last, rfl⟩
  | cons b bounds ih =>
    rw [List.map_cons, List.pairwise_cons] at hmono
    obtain ⟨i', hrest⟩ := ih b.item.timestamp hmono.2
    have hread := readBound_boundBytes (hmono.1 _ List.mem_cons_self) (boundsBytes b.item.timestamp bounds ++ t)
    have hstep : decodeBound (boundsBytes last (b :: bounds) ++ t) (ne.at last o) =
        .ok (b, boundsBytes b.item.timestamp bounds ++ t) (ne.at b.item.timestamp o) := by
      rw [boundsBytes, List.append_assoc]
      exact decodeBound_eq_ok.mpr ⟨hread, rfl⟩
    refine ⟨i', ?_⟩
    rw [List.length_cons, decodeBounds]
    refine (bind_of_ok hstep).trans ((bind_of_ok hrest).trans ?_)
    rfl

/-! ### Timestamps only grow -/

/-- The saturated sum is not less than what was added to. -/
theorem le_saturate (last delta : UInt64) : last ≤ if delta + last < last then MAX_U64 else delta + last := by
  split
  · have h := last.toNat_lt
    rw [UInt64.le_iff_toNat_le]
    change last.toNat ≤ 2 ^ 64 - 1
    omega
  · next h => exact UInt64.not_lt.mp h

theorem readBound_mono {last : UInt64} {encoded rest : Bytes} {b : Bound}
    (h : readBound last encoded = .ok (b, rest)) : last ≤ b.item.timestamp := by
  simp only [readBound, except_bind_eq_ok] at h
  obtain ⟨⟨v, e1⟩, -, ⟨len, e2⟩, -, ⟨id, e3⟩, -, b', hmake, heq⟩ := h
  cases heq
  rw [make_timestamp hmake]
  exact le_saturate last _

/-- A call that throws may have moved the timestamp already, but never backwards. -/
theorem decodeBound_error {i o : UInt64} {encoded : Bytes} {e : Err} {ne' : Negentropy σ}
    (h : decodeBound encoded (ne.at i o) = .error e ne') : ∃ i', i ≤ i' ∧ ne' = ne.at i' o := by
  cases htime : decodeVarInt encoded with
  | error e' =>
    have hbind : decodeTimestampIn encoded (ne.at i o) = .error e' (ne.at i o) := by
      simp [decodeTimestampIn, call, htime, bind, EStateM.bind, throw_apply]
    simp only [decodeBound, bind, EStateM.bind, hbind] at h
    cases h
    exact ⟨i, UInt64.le_refl i, rfl⟩
  | ok p =>
    obtain ⟨v, rest⟩ := p
    set delta := if v = 0 then MAX_U64 else v - 1 with hdelta
    set i' := if delta + i < i then MAX_U64 else delta + i with hi'
    have hbind : decodeTimestampIn encoded (ne.at i o) = .ok (i', rest) (ne.at i' o) := by
      simp only [decodeTimestampIn, bind_eq_ok, call_eq_ok, get_eq_ok, modify_eq_ok, pure_eq_ok]
      exact ⟨_, _, ⟨htime, rfl⟩, _, _, ⟨rfl, rfl⟩, (), _, rfl, rfl, rfl⟩
    refine ⟨i', le_saturate i delta, ?_⟩
    rw [decodeBound] at h
    simp only [bind, EStateM.bind, hbind] at h
    -- the calls that follow leave the object alone
    have hcall : ∀ {α : Type} (x : Except Err α) (n : Negentropy σ),
        (∃ a, call x n = .ok a n) ∨ ∃ e, call x n = .error e n := by
      intro α x n
      cases x with
      | ok a => exact .inl ⟨a, rfl⟩
      | error e => exact .inr ⟨e, rfl⟩
    rcases hcall (decodeVarInt rest) (ne.at i' o) with ⟨⟨len, rest2⟩, h2⟩ | ⟨e2, h2⟩
    · simp only [h2] at h
      rcases hcall (getBytes rest2 len.toNat) (ne.at i' o) with ⟨⟨id, rest3⟩, h3⟩ | ⟨e3, h3⟩
      · simp only [h3] at h
        rcases hcall (Bound.make i' id) (ne.at i' o) with ⟨b, h4⟩ | ⟨e4, h4⟩
        · simp only [h4] at h
          cases h
        · simp only [h4] at h
          cases h
          rfl
      · simp only [h3] at h
        cases h
        rfl
    · simp only [h2] at h
      cases h
      rfl

theorem decodeCalls_sorted (inputs : List Bytes) (i o : UInt64) :
    (i :: (decodeCalls inputs (ne.at i o)).map (·.item.timestamp)).Pairwise (· ≤ ·) := by
  induction inputs generalizing i with
  | nil => simp [decodeCalls]
  | cons encoded inputs ih =>
    rw [decodeCalls]
    cases hdec : decodeBound encoded (ne.at i o) with
    | ok p ne' =>
      obtain ⟨b, rest⟩ := p
      obtain ⟨hread, rfl⟩ := decodeBound_eq_ok.mp hdec
      have hrest := ih b.item.timestamp
      have hle := readBound_mono hread
      refine List.pairwise_cons.mpr ⟨fun t ht => ?_, hrest⟩
      rcases List.mem_cons.mp ht with rfl | ht
      · exact hle
      · exact UInt64.le_trans hle ((List.pairwise_cons.mp hrest).1 t ht)
    | error e ne' =>
      obtain ⟨i', hle, rfl⟩ := decodeBound_error hdec
      have hrest := List.pairwise_cons.mp (ih i')
      exact List.pairwise_cons.mpr ⟨fun t ht => UInt64.le_trans hle (hrest.1 t ht), hrest.2⟩

theorem decodeBounds_sorted {n : ℕ} {i o : UInt64} {encoded rest : Bytes} {bounds : List Bound} {ne' : Negentropy σ}
    (h : decodeBounds n encoded (ne.at i o) = .ok (bounds, rest) ne') :
    (i :: bounds.map (·.item.timestamp)).Pairwise (· ≤ ·) := by
  induction n generalizing i encoded bounds with
  | zero =>
    rw [decodeBounds] at h
    cases h
    simp
  | succ n ih =>
    rw [decodeBounds] at h
    obtain ⟨⟨b, rest1⟩, _, hdec, h⟩ := bind_eq_ok.mp h
    obtain ⟨hread, rfl⟩ := decodeBound_eq_ok.mp hdec
    obtain ⟨⟨bs, rest2⟩, _, hrec, h⟩ := bind_eq_ok.mp h
    cases h
    have hrest := ih hrec
    have hle := readBound_mono hread
    refine List.pairwise_cons.mpr ⟨fun t ht => ?_, hrest⟩
    rcases List.mem_cons.mp ht with rfl | ht
    · exact hle
    · exact UInt64.le_trans hle ((List.pairwise_cons.mp hrest).1 t ht)

end

/-- Bounds whose timestamps do not decrease survive the wire, and whatever is read has timestamps
that do not decrease, also when calls between those that return throw. -/
theorem bounds_on_the_wire {σ τ : Type} {s : σ} {s' : τ} {limit limit' : ℕ} {sender : Negentropy σ}
    {receiver : Negentropy τ} (hs : Negentropy.make s limit = .ok sender) (hr : Negentropy.make s' limit' = .ok receiver) :
    (∀ bounds : List Bound, (bounds.map (·.item.timestamp)).Pairwise (· ≤ ·) → ∀ t : Bytes,
      ∃ encoded sender' receiver', encodeBounds bounds sender = .ok encoded sender' ∧
        decodeBounds bounds.length (encoded ++ t) receiver = .ok (bounds, t) receiver') ∧
      (∀ n encoded bounds rest receiver', decodeBounds n encoded receiver = .ok (bounds, rest) receiver' →
        (bounds.map (·.item.timestamp)).Pairwise (· ≤ ·)) ∧
      ∀ inputs : List Bytes, ((decodeCalls inputs receiver).map (·.item.timestamp)).Pairwise (· ≤ ·) := by
  rw [make_at hs, make_at hr]
  refine ⟨fun bounds hmono t => ?_, fun n encoded bounds rest receiver' h => ?_, fun inputs => ?_⟩
  · obtain ⟨o', henc⟩ := encodeBounds_eq sender bounds 0 0
    have hzero : ((0 : UInt64) :: bounds.map (·.item.timestamp)).Pairwise (· ≤ ·) :=
      List.pairwise_cons.mpr ⟨fun t _ => UInt64.zero_le, hmono⟩
    obtain ⟨i', hdec⟩ := decodeBounds_boundsBytes receiver bounds 0 0 t hzero
    exact ⟨_, _, _, henc, hdec⟩
  · exact (List.pairwise_cons.mp (decodeBounds_sorted h)).2
  · exact (List.pairwise_cons.mp (decodeCalls_sorted inputs 0 0)).2

theorem bounds_on_the_wire_unit :
    ∃ sender receiver : Negentropy Unit, Negentropy.make () 0 = .ok sender ∧ Negentropy.make () 4096 = .ok receiver ∧
      ∃ encoded sender' receiver', encodeBounds [Bound.ofTimestamp 5, Bound.infinity, Bound.infinity] sender = .ok encoded sender' ∧
        decodeBounds 3 (encoded ++ [7]) receiver =
          .ok ([Bound.ofTimestamp 5, Bound.infinity, Bound.infinity], [7]) receiver' :=
  ⟨⟨(), 0, by decide, false, 0, 0⟩, ⟨(), 4096, by decide, false, 0, 0⟩, rfl, rfl,
    (bounds_on_the_wire (show Negentropy.make () 0 = .ok _ from rfl) (show Negentropy.make () 4096 = .ok _ from rfl)).1
      [Bound.ofTimestamp 5, Bound.infinity, Bound.infinity] (by decide) [7]⟩

end NE
