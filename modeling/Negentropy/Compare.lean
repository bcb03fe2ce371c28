import Negentropy.Lib.Rbsr.Report
import Negentropy.Respond

/-! The initiator's comparison of a list of ids with its own items finds the differences. -/

namespace NE.Party

/-- Ids that do not repeat all stay in the set. -/
theorem foldl_insertElem {ids acc : List ItemId} (h : (acc ++ ids).Nodup) :
    ids.foldl Negentropy.insertElem acc = acc ++ ids := by
  induction ids generalizing acc with
  | nil => simp
  | cons e ids ih =>
    have hnot : e ∉ acc := by
      intro he
      exact (List.nodup_append.mp h).2.2 e he e List.mem_cons_self rfl
    rw [List.append_cons] at h
    rw [List.foldl_cons, Negentropy.insertElem, if_neg hnot, ih h, List.append_assoc]
    rfl

theorem foldl_compareStep_eq {own : List Item} {theirs : List ItemId} (hown : (own.map Item.id).Nodup)
    (htheirs : theirs.Nodup) :
    own.foldl compareStep ([], theirs) =
      ((own.map Item.id).filter (· ∉ theirs), theirs.filter (· ∉ own.map Item.id)) := by
  induction own generalizing theirs with
  | nil => simp
  | cons x own ih =>
    rw [List.map_cons, List.nodup_cons] at hown
    rw [List.foldl_cons]
    by_cases hx : x.id ∈ theirs
    · have hstep : compareStep ([], theirs) x = ([], theirs.erase x.id) := if_neg (not_not.mpr hx)
      have herase : theirs.erase x.id = theirs.filter (· != x.id) := htheirs.erase_eq_filter _
      rw [hstep, ih hown.2 (htheirs.erase _), herase]
      congr 1
      · rw [List.map_cons, List.filter_cons_of_neg (by simpa using hx)]
        refine List.filter_congr fun i hi => ?_
        have hne : i ≠ x.id := fun h => hown.1 (h ▸ hi)
        simp [hne]
      · rw [List.filter_filter]
        refine List.filter_congr fun i _ => ?_
        rw [List.map_cons]
        by_cases h : i = x.id <;> simp [h]
    · have hstep : compareStep ([], theirs) x = ([x.id], theirs) := if_pos hx
      rw [hstep, ← List.nil_append [x.id], foldl_compareStep, ih hown.2 htheirs]
      congr 1
      · rw [List.map_cons, List.filter_cons_of_pos (by simpa using hx)]
        rfl
      · refine List.filter_congr fun i hi => ?_
        have hne : i ≠ x.id := fun h => hx (h ▸ hi)
        simp [hne]

/-- Both lists are found, and neither repeats an id. -/
theorem compares : Rbsr.Compares Item.id compare where
  haves ids own hids hown x := by
    rw [compare, foldl_insertElem (by simpa using hids), List.nil_append, foldl_compareStep_eq hown hids,
      (hown.filter _).count]
    simp
  needs ids own hids hown x := by
    rw [compare, foldl_insertElem (by simpa using hids), List.nil_append, foldl_compareStep_eq hown hids,
      (hids.filter _).count]
    simp

end NE.Party
