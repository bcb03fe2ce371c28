import Mathlib.Data.Nat.Notation
import Negentropy.Lib.Sorted

/-! Range-based set reconciliation, over any linear order. Two parties hold finite lists of
elements below `top` and exchange messages: lists of ranges, each from where the one
before it ends up to its own upper end. `Honest` says what a message promises and `Reply`
what a party may answer; the reply to an honest message is honest. -/

namespace Rbsr

open Sorted

variable {α ι : Type}

/-- `fingerprint elems` stands for the fingerprint of the elements `elems`. -/
inductive Payload (α ι : Type) where
  | skip
  | fingerprint (elems : List α)
  | idList (ids : List ι)

structure Range (α ι : Type) where
  upper : α
  payload : Payload α ι

/-- The elements two fingerprints were over, and whether these were equal. -/
structure Comparison (α : Type) where
  theirs : List α
  ours : List α
  agree : Bool

/-- Where a limited party dropped the ranges it had split a fingerprint over `elems` into: what it
had written ended at `last`, and the fingerprint at `upper`. -/
structure Drop (α : Type) where
  last : α
  upper : α
  elems : List α

/-- Two fingerprints over nothing agree. -/
def EmptyAgree (c : List (Comparison α)) : Prop :=
  ∀ x ∈ c, x.theirs = [] → x.ours = [] → x.agree = true

theorem EmptyAgree.tail {x : Comparison α} {c : List (Comparison α)} (h : EmptyAgree (x :: c)) : EmptyAgree c :=
  fun y hy => h y (List.mem_cons_of_mem _ hy)

variable [LinearOrder α]

/-! ### Messages -/

/-- There is something between `l` and `u`. -/
def Gap (A B : List α) (top l u : α) : Prop :=
  within A l u ≠ [] ∨ within B l u ≠ [] ∨ u = top ∧ l < top

theorem Gap.symm {A B : List α} {top l u : α} (h : Gap A B top l u) : Gap B A top l u := or_left_comm.mp h

section
variable (A B : List α) (id : α → ι) (top : α) (lossy idle : Prop)

/-- A message from `l` on, of a party that holds `A` to one that holds `B`. Every range tells
the truth about `A`; only a fingerprint that ends the message may leave out the elements
below some `b`, and unless the message is `lossy` the receiver is then sure to notice.
Unless it is `idle`, no list of identifiers is about an empty gap. -/
inductive Honest : α → List (Range α ι) → Prop
  | nil {l} : l ≤ top → Honest l []
  | tail {l b} : l ≤ b → b ≤ top → lossy ∨ within A l b = [] ∨ within B l b ≠ [] →
      Honest l [⟨top, .fingerprint (within A b top)⟩]
  | skip {l u rs} : l ≤ u → Honest u rs → Honest l (⟨u, .skip⟩ :: rs)
  | fingerprint {l u rs} : l ≤ u → within A l u ≠ [] → Honest u rs →
      Honest l (⟨u, .fingerprint (within A l u)⟩ :: rs)
  | idList {l u rs} : l ≤ u → idle ∨ Gap A B top l u → Honest u rs → Honest l (⟨u, .idList ((within A l u).map id)⟩ :: rs)

end

/-- The elements `p` in a range that is not skipped. -/
def Open : α → List (Range α ι) → α → Prop
  | _, [], _ => False
  | _, ⟨u, .skip⟩ :: rs, p => Open u rs p
  | l, ⟨u, _⟩ :: rs, p => l ≤ p ∧ p < u ∨ Open u rs p

/-- The pending skip range, if there is one. -/
inductive Flush : α → α → List (Range α ι) → Prop
  | none {l} : Flush l l []
  | skip {last l} : Flush last l [⟨l, .skip⟩]

/-- Fingerprints of non-empty parts of `[l, u)`, each of fewer than `n` elements. -/
inductive Buckets (A : List α) (n : ℕ) : α → α → List (Range α ι) → Prop
  | last {l u} : l ≤ u → within A l u ≠ [] → (within A l u).length < n →
      Buckets A n l u [⟨u, .fingerprint (within A l u)⟩]
  | cons {l m u rs} : l ≤ m → within A l m ≠ [] → (within A l m).length < n →
      Buckets A n m u rs → Buckets A n l u (⟨m, .fingerprint (within A l m)⟩ :: rs)

/-- The ranges a party splits `[l, u)` into. -/
inductive Split (A : List α) (id : α → ι) (l u : α) : List (Range α ι) → Prop
  | idList : Split A id l u [⟨u, .idList ((within A l u).map id)⟩]
  | buckets {rs} : Buckets A (within A l u).length l u rs → Split A id l u rs

section
variable (A : List α) (id : α → ι) (top : α) (cmp : List ι → List α → List ι × List ι) (client limited : Prop)

/-- What a party that holds `A` answers to a message from `l` on, `last` being the end of what
it has written. `started` says that this includes a range that is not skipped. The
lists are the reply, the identifiers reported, and the comparisons made. A `limited`
party may stop early. -/
inductive Reply : Prop → (last l : α) → (q out : List (Range α ι)) → (haves needs : List ι) →
    List (Comparison α) → Option (Drop α) → Prop
  | done {started last l} : Reply started last l [] [] [] [] [] none
  | skip {started last l u q out hs ns c d} : Reply started last u q out hs ns c d →
      Reply started last l (⟨u, .skip⟩ :: q) out hs ns c d
  | agree {started last l u X q out hs ns c d} : Reply started last u q out hs ns c d →
      Reply started last l (⟨u, .fingerprint X⟩ :: q) out hs ns (⟨X, within A l u, true⟩ :: c) d
  | split {started last l u X q fl rs out hs ns c d} : Flush last l fl → Split A id l u rs →
      Reply True u u q out hs ns c d →
      Reply started last l (⟨u, .fingerprint X⟩ :: q) (fl ++ (rs ++ out)) hs ns (⟨X, within A l u, false⟩ :: c) d
  | cutSplit {started last l u X q} : limited → started →
      Reply started last l (⟨u, .fingerprint X⟩ :: q) [⟨top, .fingerprint (within A u top)⟩] [] []
        [⟨X, within A l u, false⟩] (some ⟨last, u, X⟩)
  | report {started last l u ids q out h n hs ns c d} : client → cmp ids (within A l u) = (h, n) →
      Reply started last u q out hs ns c d →
      Reply started last l (⟨u, .idList ids⟩ :: q) out (h ++ hs) (n ++ ns) c d
  | answer {started last l u ids q fl out hs ns c d} : ¬ client → Flush last l fl →
      Reply True u u q out hs ns c d →
      Reply started last l (⟨u, .idList ids⟩ :: q) (fl ++ ⟨u, .idList ((within A l u).map id)⟩ :: out) hs ns c d
  | cutAnswer {started last l u v ids q fl} : ¬ client → limited → Flush last l fl → l ≤ v → v ≤ u →
      v = u ∨ within A l v ≠ [] →
      Reply started last l (⟨u, .idList ids⟩ :: q)
        (fl ++ [⟨v, .idList ((within A l v).map id)⟩, ⟨top, .fingerprint (within A v top)⟩]) [] [] [] none

end

section Honest
variable {A B : List α} {id : α → ι} {top : α} {lossy idle : Prop}

theorem Honest.le_top {l : α} {rs : List (Range α ι)} (h : Honest A B id top lossy idle l rs) : l ≤ top := by
  induction h with
  | nil h => exact h
  | tail h h' _ => exact h.trans h'
  | skip h _ ih => exact h.trans ih
  | fingerprint h _ _ ih => exact h.trans ih
  | idList h _ _ ih => exact h.trans ih

theorem Flush.honest {last l : α} {fl rs : List (Range α ι)} (hle : last ≤ l) (hf : Flush last l fl)
    (h : Honest A B id top lossy idle l rs) : Honest A B id top lossy idle last (fl ++ rs) := by
  cases hf with
  | none => exact h
  | skip => exact .skip hle h

theorem Buckets.le {n : ℕ} {l u : α} {rs : List (Range α ι)} (h : Buckets A n l u rs) : l ≤ u := by
  induction h with
  | last hle _ _ => exact hle
  | cons hle _ _ _ ih => exact hle.trans ih

theorem Buckets.honest {n : ℕ} {l u : α} {rs out : List (Range α ι)} (hb : Buckets A n l u rs)
    (h : Honest A B id top lossy idle u out) : Honest A B id top lossy idle l (rs ++ out) := by
  induction hb with
  | last hle hne _ => exact .fingerprint hle hne h
  | cons hle hne _ _ ih => exact .fingerprint hle hne (ih h)

/-- The ranges of an honest message that holds a fingerprint or a list of identifiers. -/
theorem Honest.of_fingerprint {l u : α} {X : List α} {rs : List (Range α ι)}
    (h : Honest A B id top lossy idle l (⟨u, .fingerprint X⟩ :: rs)) :
    l ≤ u ∧ Honest A B id top lossy idle u rs ∧
      (X = within A l u ∧ within A l u ≠ [] ∨
        u = top ∧ rs = [] ∧ ∃ b, l ≤ b ∧ b ≤ top ∧ X = within A b top ∧
          (lossy ∨ within A l b = [] ∨ within B l b ≠ [])) := by
  cases h with
  | tail h h' hx => exact ⟨h.trans h', .nil le_rfl, .inr ⟨rfl, rfl, _, h, h', rfl, hx⟩⟩
  | fingerprint h hne hr => exact ⟨h, hr, .inl ⟨rfl, hne⟩⟩

theorem Honest.of_idList {l u : α} {ids : List ι} {rs : List (Range α ι)}
    (h : Honest A B id top lossy idle l (⟨u, .idList ids⟩ :: rs)) :
    l ≤ u ∧ Honest A B id top lossy idle u rs ∧ ids = (within A l u).map id ∧
      (idle ∨ Gap A B top l u) := by
  cases h with
  | idList h hne hr => exact ⟨h, hr, rfl, hne⟩

theorem Honest.of_skip {l u : α} {rs : List (Range α ι)}
    (h : Honest A B id top lossy idle l (⟨u, .skip⟩ :: rs)) : l ≤ u ∧ Honest A B id top lossy idle u rs := by
  cases h with
  | skip h hr => exact ⟨h, hr⟩

end Honest

/-- A wider window is non-empty when a narrower one is. -/
theorem within_ne_nil_mono {A : List α} {l l' u u' : α} (hl : l ≤ l') (hu : u' ≤ u)
    (h : within A l' u' ≠ []) : within A l u ≠ [] := by
  obtain ⟨x, hx⟩ := List.exists_mem_of_ne_nil _ h
  rw [mem_within] at hx
  exact List.ne_nil_of_mem (mem_within.mpr ⟨hx.1, hl.trans hx.2.1, hx.2.2.trans_le hu⟩)

/-! ### Honesty -/

section
variable {A B : List α} {id : α → ι} {top : α} {cmp : List ι → List α → List ι × List ι}
  {client limited lossy idle : Prop}

theorem Split.honest {l u : α} {rs out : List (Range α ι)} (hs : Split A id l u rs) (hle : l ≤ u)
    (hne : idle ∨ Gap A B top l u) (h : Honest A B id top lossy idle u out) :
    Honest A B id top lossy idle l (rs ++ out) := by
  cases hs with
  | idList => exact .idList hle hne h
  | buckets hb => exact hb.honest h

/-- A fingerprint is over a gap in which there is something, unless both sides are empty. -/
theorem Honest.gap {l u : α} {X : List α} {rs : List (Range α ι)}
    (h : Honest B A id top lossy idle l (⟨u, .fingerprint X⟩ :: rs)) :
    Gap A B top l u ∨ X = [] ∧ within A l u = [] := by
  obtain ⟨hle, hr, ⟨-, hne⟩ | ⟨rfl, -, b, hlb, hb, rfl, -⟩⟩ := h.of_fingerprint
  · exact .inl (.inr (.inl hne))
  · rcases hle.lt_or_eq with hlt | rfl
    · exact .inl (.inr (.inr ⟨rfl, hlt⟩))
    · exact .inr ⟨within_empty hlb, within_empty le_rfl⟩

/-- The reply to an honest message is honest; it may be lossy if it drops the answer to a
fingerprint over nothing. -/
theorem Reply.honest {started : Prop} {last l : α} {q out : List (Range α ι)} {hs ns : List ι}
    {c : List (Comparison α)} {d : Option (Drop α)}
    (h : Reply A id top cmp client limited started last l q out hs ns c d) (hc : idle ∨ EmptyAgree c)
    (hd : lossy ∨ ∀ x ∈ d, x.elems ≠ []) (hq : Honest B A id top lossy idle l q) (hle : last ≤ l) :
    Honest A B id top lossy idle last out := by
  induction h with
  | done => exact .nil (hle.trans hq.le_top)
  | skip _ ih =>
    obtain ⟨hlu, hr⟩ := hq.of_skip
    exact ih hc hd hr (hle.trans hlu)
  | agree _ ih =>
    obtain ⟨hlu, hr, -⟩ := hq.of_fingerprint
    exact ih (hc.imp_right EmptyAgree.tail) hd hr (hle.trans hlu)
  | split hf hsp _ ih =>
    obtain ⟨hlu, hr, -⟩ := hq.of_fingerprint
    refine hf.honest hle (hsp.honest hlu ?_ (ih (hc.imp_right EmptyAgree.tail) hd hr le_rfl))
    refine hc.imp_right fun hc => hq.gap.resolve_right fun ⟨hX, hA⟩ => ?_
    exact Bool.false_ne_true (hc _ List.mem_cons_self hX hA)
  | cutSplit _ _ =>
    obtain ⟨hlu, hr, hX'⟩ := hq.of_fingerprint
    refine .tail (hle.trans hlu) hr.le_top (hd.imp_right fun hd => .inr ?_)
    have hne := hd _ rfl
    obtain ⟨rfl, -⟩ | ⟨rfl, -, b, hlb, -, rfl, -⟩ := hX'
    · exact within_ne_nil_mono hle le_rfl hne
    · exact within_ne_nil_mono (hle.trans hlb) le_rfl hne
  | report _ _ _ ih =>
    obtain ⟨hlu, hr, -⟩ := hq.of_idList
    exact ih hc hd hr (hle.trans hlu)
  | answer _ hf _ ih =>
    obtain ⟨hlu, hr, -, hgap⟩ := hq.of_idList
    exact hf.honest hle (.idList hlu (hgap.imp_right Gap.symm) (ih hc hd hr le_rfl))
  | cutAnswer _ _ hf hlv hvu hv =>
    obtain ⟨hlu, hr, -, hgap⟩ := hq.of_idList
    refine hf.honest hle (.idList hlv ?_ (.tail le_rfl (hvu.trans hr.le_top) ?_))
    · rcases hv with rfl | hv
      · exact hgap.imp_right Gap.symm
      · exact .inr (.inl hv)
    · exact .inr (.inl (within_empty le_rfl))

end

end Rbsr
