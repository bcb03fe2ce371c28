import Mathlib.Data.List.Basic
import Mathlib.Data.Prod.Lex
import Mathlib.Tactic.Common
import Negentropy.Lib.Rbsr.Message

/-! Every reply to an honest message makes progress at its first range that is not skipped:
there are fewer elements to the right of where it starts, or fewer in it. -/

namespace Rbsr

open Sorted

variable {α ι : Type} [LinearOrder α]

section
variable (A B : List α) (top : α)

/-- What is left to do from `l` on. -/
def weight (l : α) : ℕ :=
  (A.filter fun x => decide (l ≤ x)).length + (B.filter fun x => decide (l ≤ x)).length + if l < top then 1 else 0

/-- The place of the first range that is not skipped, and its rank: a list of identifiers
counts `r`, a fingerprint more the more elements it is over. -/
def measure (r : ℕ) : α → List (Range α ι) → ℕ ×ₗ ℕ
  | _, [] => toLex (0, 0)
  | _, ⟨u, .skip⟩ :: rs => measure r u rs
  | l, ⟨u, .fingerprint _⟩ :: _ => toLex (weight A B top l + 1, (within A l u).length + (within B l u).length + 2)
  | l, ⟨_, .idList _⟩ :: _ => toLex (weight A B top l + 1, r)

end

section
variable {A B : List α} {id : α → ι} {top : α} {lossy idle : Prop}

theorem filter_le_length {A : List α} {l u : α} (h : l ≤ u) :
    (A.filter fun x => decide (u ≤ x)).length + (within A l u).length =
      (A.filter fun x => decide (l ≤ x)).length := by
  induction A with
  | nil => rfl
  | cons x A ih =>
    simp only [within, List.filter_cons] at ih ⊢
    by_cases h1 : u ≤ x
    · have h2 : ¬ x < u := not_lt_of_ge h1
      simp only [h1, h2, h.trans h1, decide_true, decide_false, Bool.and_false, if_true, Bool.false_eq_true, if_false,
        List.length_cons]
      omega
    · have h2 : x < u := not_le.mp h1
      by_cases h3 : l ≤ x <;>
        simp only [h1, h2, h3, decide_true, decide_false, Bool.and_true, if_true, Bool.false_eq_true, if_false,
          List.length_cons] <;> omega

theorem weight_mono {l u : α} (h : l ≤ u) : weight A B top u ≤ weight A B top l := by
  have hA := filter_le_length (A := A) h
  have hB := filter_le_length (A := B) h
  have htop : u < top → l < top := h.trans_lt
  simp only [weight]
  split <;> split <;> first | omega | (exfalso; tauto)

theorem weight_lt {l u : α} (h : l ≤ u) (hgap : Gap A B top l u) :
    weight A B top u < weight A B top l := by
  have hA := filter_le_length (A := A) h
  have hB := filter_le_length (A := B) h
  have htop : u < top → l < top := h.trans_lt
  simp only [weight]
  rcases hgap with hne | hne | ⟨rfl, hlt⟩
  · have := List.length_pos_iff.mpr hne
    split <;> split <;> first | omega | (exfalso; tauto)
  · have := List.length_pos_iff.mpr hne
    split <;> split <;> first | omega | (exfalso; tauto)
  · rw [if_pos hlt, if_neg (lt_irrefl _)]
    omega

theorem within_length_mono {A : List α} {l m u : α} (h : m ≤ u) :
    (within A l m).length ≤ (within A l u).length := by
  refine (List.monotone_filter_right A fun x hx => ?_).length_le
  simp only [Bool.and_eq_true, decide_eq_true_eq] at hx ⊢
  exact ⟨hx.1, hx.2.trans_le h⟩

/-- A message from `u` on is smaller than a range that starts before a gap below `u`. -/
theorem Honest.measure_lt {r n : ℕ} {l u : α} {rs : List (Range α ι)} (hr : Honest B A id top lossy False u rs)
    (h : l ≤ u) (hgap : Gap A B top l u) :
    measure A B top r u rs < toLex (weight A B top l + 1, n) := by
  have hw := weight_lt h hgap
  have hbound : ∀ {v : α}, u ≤ v → weight A B top v < weight A B top l := fun hv => (weight_mono hv).trans_lt hw
  clear hgap hw h
  induction hr with
  | nil => exact Prod.Lex.toLex_lt_toLex.mpr (.inl (Nat.succ_pos _))
  | tail _ _ _ => exact Prod.Lex.toLex_lt_toLex.mpr (.inl (Nat.succ_lt_succ (hbound le_rfl)))
  | skip hle _ ih => exact ih fun hv => hbound (hle.trans hv)
  | fingerprint _ _ _ => exact Prod.Lex.toLex_lt_toLex.mpr (.inl (Nat.succ_lt_succ (hbound le_rfl)))
  | idList _ _ _ => exact Prod.Lex.toLex_lt_toLex.mpr (.inl (Nat.succ_lt_succ (hbound le_rfl)))

end

theorem Flush.measure_eq {A B : List α} {top last l : α} {r : ℕ} {fl rs : List (Range α ι)}
    (h : Flush last l fl) : measure A B top r last (fl ++ rs) = measure A B top r l rs := by
  cases h <;> rfl

theorem Split.measure_lt {A B : List α} {id : α → ι} {top l u : α} {r : ℕ} {rs out : List (Range α ι)}
    (hr : r < 2) (h : Split A id l u rs) :
    measure A B top r l (rs ++ out) <
      toLex (weight A B top l + 1, (within A l u).length + (within B l u).length + 2) := by
  cases h with
  | idList => exact Prod.Lex.toLex_lt_toLex.mpr (.inr ⟨rfl, by omega⟩)
  | buckets hb =>
    cases hb with
    | last _ _ hn => exact absurd hn (Nat.lt_irrefl _)
    | @cons _ m _ _ _ _ hn hb =>
      have := within_length_mono (A := B) (l := l) hb.le
      exact Prod.Lex.toLex_lt_toLex.mpr (.inr ⟨rfl, by omega⟩)

section
variable {A B : List α} {id : α → ι} {top : α} {cmp : List ι → List α → List ι × List ι}
  {client limited lossy : Prop}

/-- The reply to an honest message is empty or smaller. -/
theorem Reply.progress {started : Prop} {last l : α} {q out : List (Range α ι)} {hs ns : List ι}
    {c : List (Comparison α)} {d : Option (Drop α)} {r r' : ℕ} (hr : ¬ client → r' < r) (hr' : r' < 2)
    (h : Reply A id top cmp client limited started last l q out hs ns c d)
    (hq : Honest B A id top lossy False l q) (hst : ¬ started) :
    out = [] ∨ measure A B top r' last out < measure A B top r l q := by
  induction h with
  | done => exact .inl rfl
  | skip _ ih => exact ih hq.of_skip.2 hst
  | agree hrep ih =>
    obtain ⟨hlu, hrest, ⟨-, hne⟩ | ⟨-, rfl, -⟩⟩ := hq.of_fingerprint
    · exact (ih hrest hst).imp_right fun hlt => hlt.trans (hrest.measure_lt hlu (.inr (.inl hne)))
    · cases hrep
      exact .inl rfl
  | split hf hsp _ _ =>
    rw [hf.measure_eq]
    exact .inr (hsp.measure_lt hr')
  | cutSplit _ hs => exact absurd hs hst
  | report _ _ _ ih =>
    obtain ⟨hlu, hrest, -, hgap⟩ := hq.of_idList
    exact (ih hrest hst).imp_right fun hlt => hlt.trans (hrest.measure_lt hlu (hgap.resolve_left not_false).symm)
  | answer hc hf _ _ =>
    rw [hf.measure_eq]
    exact .inr (Prod.Lex.toLex_lt_toLex.mpr (.inr ⟨rfl, hr hc⟩))
  | cutAnswer hc _ hf _ _ _ =>
    rw [hf.measure_eq]
    exact .inr (Prod.Lex.toLex_lt_toLex.mpr (.inr ⟨rfl, hr hc⟩))

end

end Rbsr
