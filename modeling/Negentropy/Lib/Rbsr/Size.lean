import Negentropy.Lib.Rbsr.Exchange
import Negentropy.Lib.Rbsr.Traffic

/-! What any message of an exchange costs, with limits or without, however many rounds are over: every range that is not
skipped has something in it, and there is no more to list than the sender has. -/

namespace Rbsr

open Sorted

variable {α ι : Type}

/-- Every skipped range is charged to the range behind it. -/
def Cost.charged (x : Cost) : Cost where
  skip := 0
  fingerprint := x.skip + x.fingerprint
  list := x.skip + x.list
  element := x.element

section
variable {x : Cost} {l l' : α} {rs rs' : List (Range α ι)}

theorem total_cost_eq (l l' : α) : total x.of l rs = total x.of l' rs := by
  cases rs <;> rfl

theorem total_cost_append : total x.of l (rs ++ rs') = total x.of l rs + total x.of l rs' := by
  rw [total_append, total_cost_eq (endOf l rs) l]

theorem Flush.total_charged {last l v : α} {fl : List (Range α ι)} (h : Flush last l fl) : total x.charged.of v fl = 0 := by
  cases h <;> rfl

theorem Flush.total_le_skip {last l v : α} {fl : List (Range α ι)} (h : Flush last l fl) : total x.of v fl ≤ x.skip := by
  cases h with
  | none => exact Nat.zero_le _
  | skip => exact le_rfl

end

variable [LinearOrder α]

section
variable {A B : List α} {id : α → ι} {top : α} {cmp : List ι → List α → List ι × List ι} {x : Cost}
  {client limited lossy : Prop} {last l u : α} {rs out q : List (Range α ι)}

theorem Buckets.total_add_le {n : ℕ} (h : Buckets A n l u rs) : x.skip + total x.of l rs ≤ total x.charged.of l rs := by
  induction h with
  | last _ _ _ => exact le_rfl
  | cons _ _ _ _ ih =>
    simp only [total, Cost.of, Cost.charged] at ih ⊢
    omega

/-- What a split costs with a skipped range in front of it. -/
theorem Split.total_add_le (h : Split A id l u rs) : x.skip + total x.of l rs ≤ total x.charged.of l rs := by
  cases h with
  | idList =>
    simp only [total, Cost.of, Cost.charged]
    omega
  | buckets hb => exact hb.total_add_le

theorem Reply.total_le_charged {started : Prop} {hs ns : List ι} {c : List (Comparison α)} {d : Option (Drop α)}
    (h : Reply A id top cmp client limited started last l q out hs ns c d) (v : α) :
    total x.of v out ≤ total x.charged.of v out := by
  induction h with
  | done => exact le_rfl
  | skip _ ih => exact ih
  | agree _ ih => exact ih
  | @split _ _ l u _ _ _ rs out _ _ _ _ hf hsp _ ih =>
    have hfl := hf.total_le_skip (x := x) (v := v)
    have hrs := hsp.total_add_le (x := x)
    rw [total_cost_eq l v, total_cost_eq l v] at hrs
    rw [total_cost_append, total_cost_append, total_cost_append, total_cost_append, hf.total_charged]
    omega
  | cutSplit _ _ => exact Nat.add_le_add_right (Nat.le_add_left _ _) 0
  | report _ _ _ ih => exact ih
  | @answer _ _ l u ids _ _ out _ _ _ _ _ hf _ ih =>
    have hfl := hf.total_le_skip (x := x) (v := v)
    have hlist : ∀ y : Cost, total y.of v (⟨u, .idList ((within A l u).map id)⟩ :: out) =
        y.list + y.element * ((within A l u).map id).length + total y.of v out := fun y =>
      congrArg _ (total_cost_eq u v)
    rw [total_cost_append, total_cost_append, hf.total_charged, hlist, hlist]
    simp only [Cost.charged] at ih ⊢
    omega
  | cutAnswer _ _ hf _ _ _ =>
    have hfl := hf.total_le_skip (x := x) (v := v)
    rw [total_cost_append, total_cost_append, hf.total_charged]
    simp only [total, Cost.of, Cost.charged]
    omega

/-- What an honest message costs from `l` on when its skipped ranges cost nothing. -/
theorem Honest.total_le (h : Honest A B id top lossy False l rs) {c : ℕ} (hskip : x.skip = 0) (hfp : x.fingerprint ≤ c)
    (hlist : x.list ≤ c) :
    total x.of l rs ≤ c * (weight A B top l + 1) + x.element * (A.filter fun y => decide (l ≤ y)).length := by
  have hless : ∀ {l u : α}, l ≤ u → Gap A B top l u →
      c + c * (weight A B top u + 1) ≤ c * (weight A B top l + 1) := by
    intro l u hlu hgap
    have hlt := Nat.mul_le_mul_left c (Nat.add_le_add_right (Nat.succ_le_of_lt (weight_lt hlu hgap)) 1)
    rw [Nat.mul_succ] at hlt
    exact (Nat.add_comm _ _).trans_le hlt
  induction h with
  | nil _ => exact Nat.zero_le _
  | @tail l b _ _ _ =>
    have hone : c ≤ c * (weight A B top l + 1) := Nat.le_mul_of_pos_right c (Nat.succ_pos _)
    simp only [total, Cost.of]
    omega
  | @skip l u _ hlu _ ih =>
    have hless' : weight A B top u ≤ weight A B top l := weight_mono hlu
    have hweight := Nat.mul_le_mul_left c (Nat.add_le_add_right hless' 1)
    have helements := Nat.mul_le_mul_left x.element (Nat.le.intro (filter_le_length (A := A) hlu))
    simp only [total, Cost.of]
    omega
  | fingerprint hlu hne _ ih =>
    have hweight := hless hlu (.inl hne)
    have helements := Nat.mul_le_mul_left x.element (Nat.le.intro (filter_le_length (A := A) hlu))
    simp only [total, Cost.of]
    omega
  | idList hlu hgap _ ih =>
    have hweight := hless hlu (hgap.resolve_left not_false)
    have helements := congrArg (x.element * ·) (filter_le_length (A := A) hlu)
    simp only [Nat.mul_add] at helements
    simp only [total, Cost.of, List.length_map]
    omega

theorem weight_le (A B : List α) (top l : α) : weight A B top l ≤ A.length + B.length + 1 := by
  have hA := List.length_filter_le (fun y => decide (l ≤ y)) A
  have hB := List.length_filter_le (fun y => decide (l ≤ y)) B
  unfold weight
  split <;> omega

end

/-- What a message may cost that a party with `a` elements sends to one with `b`. -/
def Cost.bound (x : Cost) (a b : ℕ) : ℕ := (x.skip + max x.fingerprint x.list) * (a + b + 2) + x.element * a

section
variable {A B : List α} {id : α → ι} {bot top : α} {cmp : List ι → List α → List ι × List ι} {limited limited' lossy : Prop}
  {x : Cost} {q : List (Range α ι)}

theorem Honest.total_le_bound (h : Honest A B id top lossy False bot q) (hq : total x.of bot q ≤ total x.charged.of bot q) :
    total x.of bot q ≤ x.bound A.length B.length := by
  have hcharged := h.total_le (x := x.charged) (c := x.skip + max x.fingerprint x.list) rfl
    (Nat.add_le_add_left (le_max_left _ _) _) (Nat.add_le_add_left (le_max_right _ _) _)
  have hweight := Nat.mul_le_mul_left (x.skip + max x.fingerprint x.list) (Nat.succ_le_succ (weight_le A B top bot))
  have helements := Nat.mul_le_mul_left x.element (List.length_filter_le (fun y => decide (bot ≤ y)) A)
  exact hq.trans (hcharged.trans (Nat.add_le_add hweight helements))

/-- No message of an exchange costs more, whatever the limits are. -/
theorem Exchange.total_le {hs ns : List ι} {c : List (Comparison α)} {d : List (Drop α)} (hlt : bot < top)
    (h : Exchange A B id bot top cmp limited limited' q hs ns c d) (hc : EmptyAgree c) :
    total x.of bot q ≤ x.bound A.length B.length := by
  have hq : Honest A B id top True False bot q := h.honest hlt (.inr hc) (.inl trivial)
  refine hq.total_le_bound ?_
  cases h with
  | start hsplit => exact (Nat.le_add_left _ _).trans hsplit.total_add_le
  | round _ _ hrep => exact hrep.total_le_charged bot

end

end Rbsr
