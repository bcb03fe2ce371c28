import Negentropy.Lib.Rbsr.Truthful

/-! Where a list of ranges is skipped. A reply is made of stretches without skip ranges; before
each of them stands one skip range at most, for what was settled since the stretch before. -/

namespace Rbsr

open Sorted

variable {α ι : Type} [LinearOrder α]

/-- `p` is in a skip range, or behind the last range. -/
def Skips : α → List (Range α ι) → α → Prop
  | l, [], p => l ≤ p
  | l, ⟨u, payload⟩ :: rs, p => l ≤ p ∧ p < u ∧ payload = .skip ∨ Skips u rs p

/-- No two skip ranges follow each other, and the last range is none. -/
def Tidy : List (Range α ι) → Prop
  | [] => True
  | [r] => r.payload ≠ .skip
  | r :: r' :: rs => ¬ (r.payload = .skip ∧ r'.payload = .skip) ∧ Tidy (r' :: rs)

/-- Ranges from `l` to `u`, none of them skipped. -/
inductive Solid : α → α → List (Range α ι) → Prop
  | one {l u payload} : l ≤ u → payload ≠ .skip → Solid l u [⟨u, payload⟩]
  | cons {l m u payload rs} : l ≤ m → payload ≠ .skip → Solid m u rs → Solid l u (⟨m, payload⟩ :: rs)

variable {l m u last p : α} {rs rs' fl : List (Range α ι)}

theorem Skips.of_solid (hs : Solid l u rs) (h : Skips l (rs ++ rs') p) : Skips u rs' p := by
  induction hs with
  | one _ hne =>
    rcases h with ⟨-, -, hskip⟩ | h
    · exact absurd hskip hne
    · exact h
  | cons _ hne _ ih =>
    rcases h with ⟨-, -, hskip⟩ | h
    · exact absurd hskip hne
    · exact ih h

theorem Skips.of_flush (hf : Flush last l fl) (h : Skips last (fl ++ rs) p) : last ≤ p ∧ p < l ∨ Skips l rs p := by
  cases hf with
  | none => exact .inr h
  | skip =>
    rcases h with ⟨hlo, hhi, -⟩ | h
    · exact .inl ⟨hlo, hhi⟩
    · exact .inr h

omit [LinearOrder α] in
theorem Tidy.cons {r : Range α ι} (hne : r.payload ≠ .skip) (h : Tidy rs) : Tidy (r :: rs) := by
  cases rs with
  | nil => exact hne
  | cons r' rs => exact ⟨fun hskip => hne hskip.1, h⟩

theorem Solid.tidy_append (hs : Solid l u rs) (h : Tidy rs') : Tidy (rs ++ rs') := by
  induction hs with
  | one _ hne => exact .cons hne h
  | cons _ hne _ ih => exact .cons hne ih

theorem Flush.tidy_append (hf : Flush last l fl) (hs : Solid m u rs) (h : Tidy rs') : Tidy (fl ++ (rs ++ rs')) := by
  have hrest := hs.tidy_append h
  cases hf with
  | none => exact hrest
  | skip => cases hs <;> exact ⟨fun hskip => absurd hskip.2 ‹_›, hrest⟩

theorem Solid.endOf_eq (hs : Solid l u rs) : endOf l rs = u := by
  induction hs with
  | one _ _ => rfl
  | cons _ _ _ ih => exact ih

theorem Solid.ascending_append (hs : Solid l u rs) (h : Ascending u rs') : Ascending l (rs ++ rs') := by
  induction hs with
  | one hle _ => exact ⟨hle, h⟩
  | cons hle _ _ ih => exact ⟨hle, ih h⟩

theorem Flush.ascending_append (hf : Flush last l fl) (hle : last ≤ l) (h : Ascending l rs) :
    Ascending last (fl ++ rs) := by
  cases hf with
  | none => exact h
  | skip => exact ⟨hle, h⟩

theorem Ascending.ordered {top : α} (h : Ascending l rs) : Ordered top l rs := by
  induction rs generalizing l with
  | nil => trivial
  | cons r rs ih => exact ⟨.inl h.1, ih h.2⟩

theorem Buckets.solid {A : List α} {n : ℕ} (h : Buckets A n l u rs) : Solid l u rs := by
  induction h with
  | last hle _ _ => exact .one hle nofun
  | cons hle _ _ _ ih => exact .cons hle nofun ih

theorem Split.solid {A : List α} {id : α → ι} (h : Split A id l u rs) (hle : l ≤ u) : Solid l u rs := by
  cases h with
  | idList => exact .one hle nofun
  | buckets hb => exact hb.solid

end Rbsr
