import Negentropy.Refine
import Negentropy.Sha256
import Negentropy.Split
import Negentropy.Storage.Vector

/-! `splitRange` divides its range: what a peer finds by searching for the bounds it is sent are the
windows that the payloads are about. -/

namespace NE

open Sorted Stateful Negentropy

def Window.size (w : Window) : ℕ := w.end_ - w.begin_

/-- A payload that says what these items are. -/
def Payload.About [Sha256] (own : List Item) : Payload Fingerprint → Prop
  | .skip => False
  | .fingerprint f => f = fingerprintOf own
  | .idList ids => ids = own.map Item.id

/-- Windows side by side from `lower` to `upper`. -/
inductive Consecutive : ℕ → ℕ → List Window → Prop
  | last {lower upper} : lower ≤ upper → Consecutive lower upper [⟨lower, upper⟩]
  | cons {lower next upper ws} : lower < next → Consecutive next upper ws →
      Consecutive lower upper (⟨lower, next⟩ :: ws)

theorem Consecutive.le {lower upper : ℕ} {ws : List Window} (h : Consecutive lower upper ws) : lower ≤ upper := by
  induction h with
  | last hle => exact hle
  | cons hlt _ ih => exact hlt.le.trans ih

/-- None of the elements is lost, and none is in two of the windows. -/
theorem Consecutive.flatMap {lower upper : ℕ} {ws : List Window} (h : Consecutive lower upper ws) (items : List Item) :
    ws.flatMap (fun w => slice items w.begin_ w.end_) = slice items lower upper := by
  induction h with
  | last _ => exact List.append_nil _
  | cons hlt hws ih =>
    rw [List.flatMap_cons, ih]
    exact slice_append items hlt.le hws.le

/-! ### Ranges that fill a window -/

section
variable [Sha256] (items : List Item) (upper : ℕ) (upperBound : Bound) (fits : ℕ → Prop)

/-- The ranges, with their windows, that fill what is left from a position on. -/
inductive Fills : ℕ → List (Range Fingerprint) → List Window → Prop
  | last {curr payload} : curr ≤ upper → fits (upper - curr) → payload.About (slice items curr upper) →
      Fills curr [⟨upperBound, payload⟩] [⟨curr, upper⟩]
  | cons {curr next bound payload rs ws} : curr < next → next < upper → fits (next - curr) →
      lowerBound items bound.item = next → payload.About (slice items curr next) → Fills next rs ws →
      Fills curr (⟨bound, payload⟩ :: rs) (⟨curr, next⟩ :: ws)

variable {items upper upperBound fits} {curr : ℕ} {rs : List (Range Fingerprint)} {ws : List Window}

theorem Fills.consecutive (h : Fills items upper upperBound fits curr rs ws) : Consecutive curr upper ws := by
  induction h with
  | last hle _ _ => exact .last hle
  | cons hlt _ _ _ _ _ ih => exact .cons hlt ih

theorem Fills.length_eq (h : Fills items upper upperBound fits curr rs ws) : ws.length = rs.length := by
  induction h with
  | last _ _ _ => rfl
  | cons _ _ _ _ _ _ ih => exact congrArg Nat.succ ih

theorem Fills.getLast? (h : Fills items upper upperBound fits curr rs ws) :
    rs.getLast?.map Range.bound = some upperBound := by
  induction h with
  | last _ _ _ => rfl
  | @cons curr next bound payload rs ws _ _ _ _ _ hrs ih =>
    cases hrs with
    | last _ _ _ => rfl
    | cons _ _ _ _ _ _ => simpa using ih

theorem Fills.all_fit (h : Fills items upper upperBound fits curr rs ws) : ∀ w ∈ ws, fits w.size := by
  induction h with
  | last _ hfits _ => simpa [Window.size] using hfits
  | cons _ _ hfits _ _ _ ih =>
    intro w hw
    rcases List.mem_cons.mp hw with rfl | hw
    · exact hfits
    · exact ih w hw

/-- The bounds between the windows are found strictly inside. -/
theorem Fills.inner (h : Fills items upper upperBound fits curr rs ws) :
    ∀ r ∈ rs.dropLast, curr < lowerBound items r.bound.item ∧ lowerBound items r.bound.item < upper := by
  induction h with
  | last _ _ _ => simp
  | @cons curr next bound payload rs ws hlt hlt' _ hbound _ hrs ih =>
    have hne : rs ≠ [] := by cases hrs <;> simp
    intro r hr
    rw [List.dropLast_cons_of_ne_nil hne, List.mem_cons] at hr
    rcases hr with rfl | hr
    · simp only [hbound]
      exact ⟨hlt, hlt'⟩
    · obtain ⟨h1, h2⟩ := ih r hr
      exact ⟨hlt.trans h1, h2⟩

variable (hsorted : items.Pairwise (· < ·)) (hupper : lowerBound items upperBound.item = upper)
include hupper

/-- Every bound is found where its window ends. -/
theorem Fills.forall₂ (h : Fills items upper upperBound fits curr rs ws) :
    List.Forall₂ (fun r w => curr ≤ w.end_ ∧ lowerBound items r.bound.item = w.end_ ∧
      r.payload.About (slice items w.begin_ w.end_)) rs ws := by
  induction h with
  | last hle _ habout => exact .cons ⟨hle, hupper, habout⟩ .nil
  | cons hlt _ _ hbound habout _ ih =>
    exact .cons ⟨hlt.le, hbound, habout⟩ (ih.imp fun _ _ hrw => ⟨hlt.le.trans hrw.1, hrw.2⟩)

theorem Fills.lowerBound_gt (h : Fills items upper upperBound fits curr rs ws) (hlt : curr < upper) :
    ∀ r ∈ rs, curr < lowerBound items r.bound.item := by
  induction h with
  | last _ _ _ =>
    intro r hr
    obtain rfl := List.mem_singleton.mp hr
    rwa [hupper]
  | cons hcurr hnext _ hbound _ _ ih =>
    intro r hr
    rcases List.mem_cons.mp hr with rfl | hr
    · rwa [hbound]
    · exact hcurr.trans (ih hnext r hr)

include hsorted

theorem Fills.increasing (h : Fills items upper upperBound fits curr rs ws) :
    (rs.map fun r => r.bound.item).Pairwise (· < ·) := by
  induction h with
  | last _ _ _ => exact List.pairwise_singleton _ _
  | @cons curr next bound payload rs ws _ hnext _ hbound _ hrs ih =>
    refine List.pairwise_cons.mpr ⟨fun k hk => ?_, ih⟩
    obtain ⟨r, hr, rfl⟩ := List.mem_map.mp hk
    by_contra hge
    have hmono := lowerBound_mono hsorted (not_lt.mp hge)
    have hgt := hrs.lowerBound_gt hupper hnext r hr
    simp only at hbound hmono
    omega

end

/-! ### What `splitRange` writes -/

/-- The fingerprints of the windows. -/
def ownFp [Sha256] (items : List Item) (b e : ℕ) : Fingerprint := fingerprintOf (slice items b e)

section
variable [Sha256] {P : Party} (hsorted : P.items.Pairwise (· < ·))
include hsorted

/-- The buckets. -/
theorem splitBuckets_fills {upper itemsPerBucket bucketsWithExtra : ℕ} (upperBound : Bound) (hu : upper ≤ P.items.length)
    (hpos : 0 < itemsPerBucket) (hextra : bucketsWithExtra ≤ buckets) :
    ∀ (remaining curr : ℕ), remaining + 1 ≤ buckets →
      curr + (remaining + 1) * itemsPerBucket + (bucketsWithExtra - (buckets - (remaining + 1))) = upper →
      ∃ ws, ws.length = remaining + 1 ∧
        Fills P.items upper upperBound (fun n => n = itemsPerBucket ∨ n = itemsPerBucket + 1) curr
          (render (ownFp P.items) (P.splitBuckets upper upperBound itemsPerBucket bucketsWithExtra (remaining + 1) curr)) ws := by
  intro remaining
  induction remaining with
  | zero =>
    intro curr hr hsum
    have hlast : curr + (itemsPerBucket + if buckets - (0 + 1) < bucketsWithExtra then 1 else 0) = upper := by
      split <;> omega
    refine ⟨[⟨curr, upper⟩], rfl, ?_⟩
    simp only [Party.splitBuckets, hlast, if_true]
    exact .last (by omega) (by split at hlast <;> omega) rfl
  | succ remaining ih =>
    intro curr hr hsum
    have hnext := Party.bucket_step hr hsum
    simp only at hnext
    set next := curr + (itemsPerBucket + if buckets - (remaining + 1 + 1) < bucketsWithExtra then 1 else 0) with hdef
    have hsize : next - curr = itemsPerBucket ∨ next - curr = itemsPerBucket + 1 := by
      rw [hdef]
      split <;> omega
    have hlt : next < upper := by
      have : 0 < (remaining + 1) * itemsPerBucket := Nat.mul_pos (Nat.succ_pos _) hpos
      omega
    obtain ⟨ws, hlen, hws⟩ := ih next (by omega) hnext
    obtain ⟨-, -, hfound⟩ := lowerBound_minimalBound hsorted (show 0 < next by omega) (show next < P.items.length by omega)
    refine ⟨⟨curr, next⟩ :: ws, congrArg Nat.succ hlen, ?_⟩
    rw [Party.splitBuckets]
    simp only [← hdef, hlt.ne, if_false]
    exact .cons (by omega) hlt hsize hfound rfl hws

/-- A range is split into the list of its ids or into sixteen buckets. -/
theorem splitRange_fills {lower upper : ℕ} (upperBound : Bound) (hl : lower ≤ upper) (hu : upper ≤ P.items.length) :
    ∃ (fits : ℕ → Prop) (ws : List Window),
      Fills P.items upper upperBound fits lower (render (ownFp P.items) (P.splitRange lower upper upperBound)) ws ∧
      (buckets * 2 ≤ upper - lower → ws.length = buckets ∧
        ∀ n, fits n → n = (upper - lower) / buckets ∨ n = (upper - lower) / buckets + 1) := by
  by_cases hn : upper - lower < buckets * 2
  · refine ⟨fun _ => True, [⟨lower, upper⟩], ?_, fun hmany => absurd hn (not_lt.mpr hmany)⟩
    simp only [Party.splitRange, if_pos hn]
    exact .last hl trivial rfl
  · have hdiv := Nat.div_add_mod (upper - lower) buckets
    have hmul : buckets * ((upper - lower) / buckets) = 16 * ((upper - lower) / buckets) := rfl
    have hmod := Nat.mod_lt (upper - lower) (show 0 < buckets by decide)
    have hpos : 0 < (upper - lower) / buckets := Nat.div_pos (by omega) (by decide)
    have hrest : buckets - (15 + 1) = 0 := rfl
    obtain ⟨ws, hlen, hws⟩ := splitBuckets_fills hsorted upperBound hu hpos hmod.le 15 lower le_rfl (by omega)
    refine ⟨_, ws, ?_, fun _ => ⟨hlen, fun _ hfits => hfits⟩⟩
    simp only [Party.splitRange, if_neg hn]
    exact hws

end

/-- The ranges divide the items from `lower` to `upper` into these windows. -/
structure Partitions {σ : Type} [StorageBase σ] [Sha256] (storage : σ) (items : List Item) (lower upper : ℕ)
    (upperBound : Bound) (rs : List (Range Fingerprint)) (ws : List Window) : Prop where
  increasing : (rs.map fun r => r.bound.item).Pairwise (· < ·)
  last : rs.getLast?.map Range.bound = some upperBound
  inner : ∀ r ∈ rs.dropLast, ∃ first last, items[lower]? = some first ∧ items[upper - 1]? = some last ∧
    first < r.bound.item ∧ r.bound.item ≤ last
  consecutive : Consecutive lower upper ws
  divided : ws.flatMap (fun w => slice items w.begin_ w.end_) = slice items lower upper
  payloads : List.Forall₂ (fun r w => StorageBase.findLowerBound storage lower items.length r.bound = .ok w.end_ ∧
    r.payload.About (slice items w.begin_ w.end_)) rs ws
  buckets : 32 ≤ upper - lower → rs.length = 16 ∧ ∀ w ∈ ws, 2 ≤ w.size ∧ w.size < upper - lower ∧
    ∀ w' ∈ ws, w.size ≤ w'.size + 1

/-- `splitRange` writes ranges that divide its own. -/
theorem splitRange_partitions {σ : Type} [StorageBase σ] [Sha256] {ne : Negentropy σ} {items : List Item}
    (hs : Presents ne.storage items (fun b e => fingerprintOf (slice items b e))) {lower upper : ℕ} (hl : lower ≤ upper)
    (hu : upper ≤ items.length) {upperBound : Bound}
    (hupper : ∀ i (hi : i < items.length), items[i] < upperBound.item ↔ i < upper) :
    ∃ rs ws ne', splitRange lower upper upperBound ne = .ok (rangesBytes ne.lastTimestampOut rs) ne' ∧
      Partitions ne.storage items lower upper upperBound rs ws := by
  have hsorted := hs.sorted
  have hfound : lowerBound items upperBound.item = upper := by
    refine lowerBound_eq hsorted hu (fun hpos => (hupper _ (by omega)).mpr (by omega)) fun hlt => ?_
    exact not_lt.mp ((hupper _ hlt).not.mpr (lt_irrefl _))
  obtain ⟨fits, ws, hfills, hmany⟩ := @splitRange_fills _ (ne.party items) hsorted lower upper upperBound hl hu
  refine ⟨_, ws, _, splitRange_eq hs.toReads hl hu upperBound ne.lastTimestampIn ne.lastTimestampOut, ?_⟩
  refine ⟨hfills.increasing hsorted hfound, hfills.getLast?, fun r hr => ?_, hfills.consecutive,
    hfills.consecutive.flatMap items, ?_, fun hlarge => ?_⟩
  · obtain ⟨hgt, hlt⟩ := hfills.inner r hr
    have h1 : lower < items.length := by omega
    have h2 : upper - 1 < items.length := by omega
    refine ⟨_, _, List.getElem?_eq_getElem h1, List.getElem?_eq_getElem h2, ?_, ?_⟩
    · exact (lt_lowerBound_iff hsorted h1).mp hgt
    · exact (lowerBound_le_iff hsorted h2).mp (by simp only [Negentropy.party] at hlt; omega)
  · refine (hfills.forall₂ hfound).imp fun r w hrw => ⟨?_, hrw.2.2⟩
    obtain ⟨hle, hbound, -⟩ := hrw
    change lowerBound items r.bound.item = w.end_ at hbound
    rw [hs.findLowerBound lower r.bound (by omega), hbound]
  · obtain ⟨hlen, hsizes⟩ := hmany hlarge
    have hdiv := Nat.div_add_mod (upper - lower) 16
    have hmod := Nat.mod_lt (upper - lower) (show 0 < 16 by decide)
    have hsize : ∀ w ∈ ws, w.size = (upper - lower) / 16 ∨ w.size = (upper - lower) / 16 + 1 := fun w hw =>
      hsizes _ (hfills.all_fit w hw)
    refine ⟨hfills.length_eq ▸ hlen, fun w hw => ?_⟩
    have hw' := hsize w hw
    refine ⟨by omega, by omega, fun w' hmem => ?_⟩
    have := hsize w' hmem
    omega

section

local instance partitionSha256 : Sha256 := SHA256.real

/-- Those of 36 items that are between the first and the last. -/
theorem splitRange_partitions_sixteen :
    let v : Storage.Vector := { items := itemsAt (List.range 36), isSealed := true }
    let ne : Negentropy Storage.Vector := { storage := v, frameSizeLimit := 0, limit_ok := Or.inl rfl }
    ∃ rs ws ne', splitRange 1 35 (Bound.ofTimestamp 35) ne = .ok (rangesBytes 0 rs) ne' ∧
      Partitions v v.items 1 35 (Bound.ofTimestamp 35) rs ws ∧ rs.length = 16 := by
  intro v ne
  have hlength : v.items.length = 36 := List.length_map _
  have hs : Presents ne.storage v.items (fun b e => fingerprintOf (slice v.items b e)) :=
    Storage.Vector.presents rfl (hlength.trans_lt (by decide)) (itemsAt_sorted List.pairwise_lt_range (by decide))
  have hupper : ∀ i (hi : i < v.items.length), v.items[i] < (Bound.ofTimestamp 35).item ↔ i < 35 := by decide +kernel
  obtain ⟨rs, ws, ne', hsplit, hpartitions⟩ :=
    splitRange_partitions hs (show 1 ≤ 35 by decide) (hlength ▸ by decide) hupper
  exact ⟨rs, ws, ne', hsplit, hpartitions, (hpartitions.buckets (by decide)).1⟩

end

end NE
