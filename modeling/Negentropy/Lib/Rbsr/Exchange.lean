import Mathlib.Order.WellFounded
import Negentropy.Lib.Rbsr.Progress
import Negentropy.Lib.Rbsr.Report
import Negentropy.Lib.Rbsr.Truthful

/-! Exchanges: a client that holds `A` splits everything, and from then on server and client
answer each other. What holds of a single reply is chained over the rounds. -/

namespace Rbsr

open Sorted

variable {α ι : Type} [LinearOrder α]

section
variable (A B : List α) (id : α → ι) (bot top : α) (cmp : List ι → List α → List ι × List ι)
  (limited limited' : Prop)

/-- What a client has sent last, reported, compared (also on the server's side) and dropped when some
rounds are over. -/
inductive Exchange : List (Range α ι) → List ι → List ι → List (Comparison α) → List (Drop α) → Prop
  | start {rs} : Split A id bot top rs → Exchange rs [] [] [] []
  | round {q mid out hs ns h n h' n' c c' c'' d d' d''} : Exchange q hs ns c d →
      Reply B id top cmp False limited' False bot bot q mid h' n' c' d' →
      Reply A id top cmp True limited False bot bot mid out h n c'' d'' →
      Exchange out (hs ++ h) (ns ++ n) (c ++ c' ++ c'') (d ++ d'.toList ++ d''.toList)

end

section
variable {A B : List α} {id : α → ι} {bot top : α} {cmp : List ι → List α → List ι × List ι}
  {limited limited' lossy idle : Prop}

omit [LinearOrder α] in
theorem EmptyAgree.append {c c' : List (Comparison α)} : EmptyAgree (c ++ c') ↔ EmptyAgree c ∧ EmptyAgree c' := by
  simp only [EmptyAgree, List.mem_append, or_imp, forall_and]

/-- The client's messages are honest, and so are the server's. -/
theorem Exchange.honest {q : List (Range α ι)} {hs ns : List ι} {c : List (Comparison α)} {d : List (Drop α)}
    (h : Exchange A B id bot top cmp limited limited' q hs ns c d) (hlt : bot < top) (hc : idle ∨ EmptyAgree c)
    (hd : lossy ∨ ∀ x ∈ d, x.elems ≠ []) : Honest A B id top lossy idle bot q := by
  induction h with
  | @start rs hs =>
    rw [← List.append_nil rs]
    exact hs.honest hlt.le (.inr (.inr (.inr ⟨rfl, hlt⟩))) (.nil le_rfl)
  | round _ hrep hrep' ih =>
    simp only [EmptyAgree.append, List.mem_append, or_imp, forall_and, Option.mem_toList] at hc hd
    have hq := ih (hc.imp_right fun hc => hc.1.1) (hd.imp_right fun hd => hd.1.1)
    have hmid := hrep.honest (hc.imp_right fun hc => hc.1.2) (hd.imp_right fun hd => hd.1.2) hq le_rfl
    exact hrep'.honest (hc.imp_right And.right) (hd.imp_right And.right) hmid le_rfl

/-- Everything reported is a difference. -/
theorem Exchange.reported [DecidableEq ι] {q : List (Range α ι)} {hs ns : List ι} {c : List (Comparison α)}
    {d : List (Drop α)} (hid : Identified A B id) (hcmp : Compares id cmp) (hlt : bot < top)
    (h : Exchange A B id bot top cmp limited limited' q hs ns c d) :
    (∀ x ∈ hs, ∃ p, (p ∈ A ∧ p ∉ B) ∧ id p = x) ∧ (∀ x ∈ ns, ∃ p, (p ∈ B ∧ p ∉ A) ∧ id p = x) := by
  induction h with
  | start _ => simp
  | round hex hrep hrep' ih =>
    have hq : Honest A B id top True True bot _ := hex.honest hlt (.inl trivial) (.inl trivial)
    have hmid := hrep.honest (.inl trivial) (.inl trivial) hq le_rfl
    obtain ⟨hh, hn⟩ := hrep'.reported hid hcmp hmid
    simp only [List.mem_append, or_imp, forall_and]
    exact ⟨⟨ih.1, hh⟩, ih.2, hn⟩

/-- Where no fingerprint over nothing was dropped and equal fingerprints were over equal identifiers,
every difference is reported or in an open range. -/
theorem Exchange.covered [DecidableEq ι] {q : List (Range α ι)} {hs ns : List ι} {c : List (Comparison α)}
    {d : List (Drop α)} (hid : Identified A B id) (hcmp : Compares id cmp) (hlt : bot < top)
    (h : Exchange A B id bot top cmp limited limited' q hs ns c d) (hd : ∀ x ∈ d, x.elems ≠ [])
    (hc : ∀ x ∈ c, x.SameIds id) {p : α} (hp : Differs A B p) (hbot : bot ≤ p) (htop : p < top) :
    id p ∈ hs ∨ id p ∈ ns ∨ Open bot q p := by
  induction h with
  | start hs => exact .inr (.inr (by simpa using (hs.open_iff p []).mpr (.inl ⟨hbot, htop⟩)))
  | round hex hrep hrep' ih =>
    simp only [List.mem_append, or_imp, forall_and, Option.mem_toList] at hc hd
    have hq : Honest A B id top False True bot _ := hex.honest hlt (.inl trivial) (.inr hd.1.1)
    have hmid := hrep.honest (.inl trivial) (.inr hd.1.2) hq le_rfl
    simp only [List.mem_append]
    rcases ih hd.1.1 hc.1.1 with hh | hn | hopen
    · exact .inl (.inl hh)
    · exact .inr (.inl (.inl hn))
    · -- the server reports nothing, so that the difference is in its reply
      have hserver := hrep.covered hid.symm hcmp hq le_rfl hc.1.2 hp.symm hopen
      obtain ⟨rfl, rfl⟩ := hrep.silent not_false
      simp only [List.not_mem_nil, false_or] at hserver
      exact (hrep'.covered hid hcmp hmid le_rfl hc.2 hp hserver).imp .inr (Or.imp_left .inr)

/-- Without limits a difference is reported at most once, and not while it is in an open range. -/
theorem Exchange.once [DecidableEq ι] {q : List (Range α ι)} {hs ns : List ι} {c : List (Comparison α)}
    {d : List (Drop α)} (hid : Identified A B id) (hcmp : Compares id cmp) (hlt : bot < top) (hlim : ¬ limited)
    (hlim' : ¬ limited') (h : Exchange A B id bot top cmp limited limited' q hs ns c d) {p : α} (hp : Differs A B p) :
    hs.count (id p) + ns.count (id p) + pending bot q p ≤ 1 := by
  induction h with
  | start _ =>
    unfold pending
    split <;> simp
  | round hex hrep hrep' ih =>
    have hq : Honest A B id top True True bot _ := hex.honest hlt (.inl trivial) (.inl trivial)
    have hmid := hrep.honest (.inl trivial) (.inl trivial) hq le_rfl
    have h1 := hrep.once hid.symm hcmp hlim' hq hp.symm
    have h2 := hrep'.once hid hcmp hlim hmid hp
    simp only [List.count_append]
    omega

theorem Reply.no_drop {client started : Prop} {last l : α} {q out : List (Range α ι)} {hs ns : List ι}
    {c : List (Comparison α)} {d : Option (Drop α)}
    (h : Reply A id top cmp client limited started last l q out hs ns c d) (hlim : ¬ limited) : d = none := by
  induction h with
  | cutSplit hl _ => exact absurd hl hlim
  | done => rfl
  | cutAnswer _ _ _ _ _ _ => rfl
  | skip _ ih => exact ih
  | agree _ ih => exact ih
  | split _ _ _ ih => exact ih
  | report _ _ _ ih => exact ih
  | answer _ _ _ ih => exact ih

/-- Without limits nothing is dropped. -/
theorem Exchange.no_drop {q : List (Range α ι)} {hs ns : List ι} {c : List (Comparison α)} {d : List (Drop α)}
    (h : Exchange A B id bot top cmp limited limited' q hs ns c d) (hlim : ¬ limited) (hlim' : ¬ limited') : d = [] := by
  induction h with
  | start _ => rfl
  | round _ hrep hrep' ih =>
    rw [ih, hrep.no_drop hlim', hrep'.no_drop hlim]
    rfl

/-! ### Termination -/

theorem measure_comm (r : ℕ) (l : α) (rs : List (Range α ι)) : measure A B top r l rs = measure B A top r l rs := by
  induction rs generalizing l with
  | nil => rfl
  | cons r rs ih =>
    obtain ⟨u, payload⟩ := r
    cases payload with
    | skip => exact ih u
    | fingerprint X => simp only [measure, weight, Nat.add_comm]
    | idList ids => simp only [measure, weight, Nat.add_comm]

theorem Reply.nil_eq {client started : Prop} {last l : α} {out : List (Range α ι)} {hs ns : List ι}
    {c : List (Comparison α)} {d : Option (Drop α)}
    (h : Reply A id top cmp client limited started last l [] out hs ns c d) : out = [] := by
  cases h
  rfl

/-- The client's next message is empty or smaller. -/
theorem round_progress {q mid out : List (Range α ι)} {h n h' n' : List ι} {c c' : List (Comparison α)}
    {d d' : Option (Drop α)} (hq : Honest A B id top lossy False bot q)
    (hmid : Honest B A id top lossy False bot mid)
    (hrep : Reply B id top cmp False limited' False bot bot q mid h' n' c d)
    (hrep' : Reply A id top cmp True limited False bot bot mid out h n c' d') :
    out = [] ∨ measure A B top 1 bot out < measure A B top 1 bot q := by
  rcases hrep.progress (fun _ => Nat.one_pos) Nat.two_pos hq not_false with rfl | hlt
  · exact .inl hrep'.nil_eq
  · rw [measure_comm, measure_comm 1] at hlt
    exact (hrep'.progress (fun h => absurd trivial h) (by decide) hmid not_false).imp_right fun hlt' => hlt'.trans hlt

/-- Messages that become smaller as long as they are not empty are empty in the end. -/
theorem exists_nil_of_progress (messages : ℕ → List (Range α ι))
    (h : ∀ n, messages (n + 1) = [] ∨ measure A B top 1 bot (messages (n + 1)) < measure A B top 1 bot (messages n)) :
    ∃ n, messages n = [] := by
  obtain ⟨n, hn⟩ := WellFounded.not_rel_apply_succ (r := (· < ·)) fun n => measure A B top 1 bot (messages n)
  exact ⟨n + 1, (h n).resolve_right hn⟩

end

end Rbsr
