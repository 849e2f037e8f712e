import Tern.Json.Basic
import Tern.Proofs.Decimal.Numeral

/-!
# The order of members

Members stand in the order of objects when no key is repeated, the array indices come first and
ascend, and no other key is one. Arranging brings members into that order, loses none of them and
leaves alone what is in order already. Whether members are in order depends on their keys only.

* `Json.Arranged`: members in the order of objects;
* `Json.arranged_arrange`, `Json.arrange_of_arranged`: arranging arranges, and no more than once;
* `Json.arrange_perm`: the members stay the same.
-/

namespace Tern

namespace Table

variable {κ α : Type} [DecidableEq κ]

theorem set_of_not_mem {key : κ} {value : α} {t : List (κ × α)} (h : key ∉ t.map (·.1)) :
    set key value t = t ++ [(key, value)] := by
  induction t with
  | nil => rfl
  | cons e rest ih =>
    obtain ⟨k, v⟩ := e
    simp only [List.map_cons, List.mem_cons, not_or] at h
    rw [set, if_neg (fun hk => h.1 hk.symm), ih h.2, List.cons_append]

theorem map_fst_set (key : κ) (value : α) (t : List (κ × α)) :
    (set key value t).map (·.1) =
      if key ∈ t.map (·.1) then t.map (·.1) else t.map (·.1) ++ [key] := by
  induction t with
  | nil => simp [set]
  | cons e rest ih =>
    obtain ⟨k, v⟩ := e
    by_cases hk : k = key
    · simp [set, hk]
    · have hk' : ¬key = k := fun h => hk h.symm
      rw [set, if_neg hk, List.map_cons, ih]
      by_cases hMem : key ∈ rest.map (·.1)
      · simp only [List.map_cons, List.mem_cons, hMem, or_true, if_true]
      · simp only [List.map_cons, List.mem_cons, hk', hMem, or_self, if_false, List.cons_append]

theorem nodup_set {key : κ} {value : α} {t : List (κ × α)} (h : (t.map (·.1)).Nodup) :
    ((set key value t).map (·.1)).Nodup := by
  rw [map_fst_set]
  split
  · exact h
  · next hMem =>
    rw [List.nodup_append]
    refine ⟨h, by simp, ?_⟩
    intro a ha b hb hab
    rw [List.mem_singleton.mp hb] at hab
    exact hMem (hab ▸ ha)

theorem nodup_ofList (entries : List (κ × α)) : ((ofList entries).map (·.1)).Nodup := by
  have hFold : ∀ t : List (κ × α), (t.map (·.1)).Nodup →
      ((entries.foldl (fun t e => set e.1 e.2 t) t).map (·.1)).Nodup := by
    induction entries with
    | nil => exact fun t ht => ht
    | cons e rest ih => exact fun t ht => ih _ (nodup_set ht)
  exact hFold [] (by simp)

theorem ofList_of_nodup {entries : List (κ × α)} (h : (entries.map (·.1)).Nodup) :
    ofList entries = entries := by
  have hFold : ∀ t : List (κ × α), ((t ++ entries).map (·.1)).Nodup →
      entries.foldl (fun t e => set e.1 e.2 t) t = t ++ entries := by
    induction entries with
    | nil => exact fun t _ => (List.append_nil t).symm
    | cons e rest ih =>
      intro t ht
      have hNew : e.1 ∉ t.map (·.1) := by
        intro hMem
        rw [List.map_append, List.map_cons, List.nodup_append] at ht
        exact ht.2.2 e.1 hMem e.1 List.mem_cons_self rfl
      have hNext : t ++ [e] ++ rest = t ++ e :: rest := by simp
      rw [List.foldl_cons, set_of_not_mem hNew, ih (List.nodup_cons.mp h).2 _ (by rwa [hNext]),
        hNext]
  exact hFold [] h

end Table

namespace Json

/-- Members in the order of objects. -/
structure Arranged {κ α : Type} [Key κ] (members : List (κ × α)) : Prop where
  nodup : (members.map (·.1)).Nodup
  sorted : members.Pairwise fun a b => match Key.index? a.1, Key.index? b.1 with
    | some i, some j => i ≤ j
    | none, some _ => False
    | _, none => True

variable {κ α β : Type} [Key κ] {members : List (κ × α)}

/-- Only the keys matter. -/
theorem Arranged.map {f : α → β} (h : Arranged members) :
    Arranged (members.map fun m => (m.1, f m.2)) where
  nodup := by
    rw [List.map_map]
    exact h.nodup
  sorted := List.pairwise_map.mpr h.sorted

/-- Keys that are no array indices may come in any order. -/
theorem arranged_of_words (hNodup : (members.map (·.1)).Nodup)
    (hWords : ∀ m ∈ members, Key.index? m.1 = none) : Arranged members where
  nodup := hNodup
  sorted := by
    refine List.Pairwise.imp_of_mem ?_
      (List.pairwise_of_forall (R := fun _ _ => True) fun _ _ => trivial)
    intro a b _ hb _
    rw [hWords b hb]
    cases Key.index? a.1 <;> trivial

/-- A key that does not consist of digits is no array index. -/
theorem indexOf_eq_none {key : String} (h : key.toList.all isDigit = false) :
    indexOf? key = none := by
  unfold indexOf?
  rw [if_neg]
  intro hIndex
  have hDigits : key.toList = Nat.toDigits 10 (Decimal.valueOfDigits key.toList) := by
    simp only [Bool.and_eq_true, decide_eq_true_eq] at hIndex
    exact hIndex.1
  have hAll : key.toList.all isDigit = true := by
    rw [hDigits, List.all_eq_true]
    exact fun c hc => Decimal.isDigit_toDigits hc
  rw [h] at hAll
  cases hAll

/-! ## Arranging -/

/-- The members with array indices, each with its index. -/
def indexed (members : List (κ × α)) : List (Nat × κ × α) :=
  members.filterMap fun m => (Key.index? m.1).map (·, m)

theorem index_of_mem_indexed {e : Nat × κ × α} (h : e ∈ indexed members) :
    Key.index? e.2.1 = some e.1 := by
  obtain ⟨m, -, hm⟩ := List.mem_filterMap.mp h
  obtain ⟨i, hi, rfl⟩ := Option.map_eq_some_iff.mp hm
  exact hi

theorem map_snd_indexed (members : List (κ × α)) :
    (indexed members).map (·.2) = members.filter fun m => (Key.index? m.1).isSome := by
  induction members with
  | nil => rfl
  | cons m rest ih =>
    unfold indexed at ih ⊢
    cases hIndex : Key.index? m.1 with
    | none => simp [hIndex, ih]
    | some i => simp [hIndex, ih]

theorem indicesFirst_perm (members : List (κ × α)) : (indicesFirst members).Perm members := by
  have hSorted : ((indexed members).mergeSort fun a b => a.1 ≤ b.1).map (·.2) |>.Perm
      (members.filter fun m => (Key.index? m.1).isSome) := by
    rw [← map_snd_indexed]
    exact (List.mergeSort_perm _ _).map _
  have hOthers : (members.filter fun m => (Key.index? m.1).isNone) =
      members.filter fun m => !(Key.index? m.1).isSome := by
    congr 1
    funext m
    cases Key.index? m.1 <;> rfl
  unfold indicesFirst
  dsimp only
  rw [hOthers]
  exact (hSorted.append_right _).trans (List.filter_append_perm _ _)

omit [Key κ] in
/-- Sorting puts indices in ascending order. -/
theorem pairwise_sorted_indices (entries : List (Nat × κ × α)) :
    (entries.mergeSort fun a b => a.1 ≤ b.1).Pairwise fun a b => a.1 ≤ b.1 := by
  have hTrans : ∀ a b c : Nat × κ × α, decide (a.1 ≤ b.1) = true →
      decide (b.1 ≤ c.1) = true → decide (a.1 ≤ c.1) = true := by
    intro a b c hab hbc
    simp only [decide_eq_true_eq] at hab hbc ⊢
    exact Nat.le_trans hab hbc
  have hTotal : ∀ a b : Nat × κ × α, (decide (a.1 ≤ b.1) || decide (b.1 ≤ a.1)) = true := by
    intro a b
    simpa using Nat.le_total a.1 b.1
  simpa using List.pairwise_mergeSort hTrans hTotal entries

theorem arranged_indicesFirst (hNodup : (members.map (·.1)).Nodup) :
    Arranged (indicesFirst members) where
  nodup := ((indicesFirst_perm members).map (·.1)).nodup_iff.mpr hNodup
  sorted := by
    have hIndex : ∀ e ∈ (indexed members).mergeSort fun a b => a.1 ≤ b.1,
        Key.index? e.2.1 = some e.1 := fun e he =>
      index_of_mem_indexed ((List.mergeSort_perm _ _).mem_iff.mp he)
    have hNone : ∀ b ∈ members.filter fun m => (Key.index? m.1).isNone, Key.index? b.1 = none := by
      intro b hb
      simpa using (List.mem_filter.mp hb).2
    refine List.pairwise_append.mpr ⟨?_, ?_, ?_⟩
    · refine List.pairwise_map.mpr ((pairwise_sorted_indices (indexed members)).imp_of_mem ?_)
      intro a b ha hb hab
      rw [hIndex a ha, hIndex b hb]
      exact hab
    · refine List.Pairwise.imp_of_mem ?_
        (List.pairwise_of_forall (R := fun _ _ => True) fun _ _ => trivial)
      intro a b _ hb _
      rw [hNone b hb]
      cases Key.index? a.1 <;> trivial
    · intro a _ b hb
      rw [hNone b hb]
      cases Key.index? a.1 <;> trivial

theorem arranged_arrange [DecidableEq κ] (members : List (κ × α)) : Arranged (arrange members) :=
  arranged_indicesFirst (Table.nodup_ofList members)

/-- The indices of members in order ascend already. -/
theorem pairwise_indexed (h : Arranged members) :
    (indexed members).Pairwise fun a b => decide (a.1 ≤ b.1) = true := by
  refine List.pairwise_filterMap.mpr (h.sorted.imp ?_)
  intro a b hab e he e' he'
  obtain ⟨i, hi, rfl⟩ := Option.map_eq_some_iff.mp he
  obtain ⟨j, hj, rfl⟩ := Option.map_eq_some_iff.mp he'
  rw [hi, hj] at hab
  simpa using hab

/-- Of members in order, those with indices are a first part. -/
theorem filter_append_filter (h : Arranged members) :
    (members.filter fun m => (Key.index? m.1).isSome) ++
      (members.filter fun m => (Key.index? m.1).isNone) = members := by
  obtain ⟨-, hSorted⟩ := h
  induction members with
  | nil => rfl
  | cons m rest ih =>
    obtain ⟨hFirst, hRest⟩ := List.pairwise_cons.mp hSorted
    cases hIndex : Key.index? m.1 with
    | some i =>
      simp only [List.filter_cons, hIndex, Option.isSome_some, Option.isNone_some, if_true,
        Bool.false_eq_true, if_false, List.cons_append]
      rw [ih hRest]
    | none =>
      have hNone : ∀ m' ∈ rest, Key.index? m'.1 = none := by
        intro m' hm'
        have hLater := hFirst m' hm'
        rw [hIndex] at hLater
        cases hIndex' : Key.index? m'.1 with
        | none => rfl
        | some j =>
          rw [hIndex'] at hLater
          cases hLater
      have hNoIndex : rest.filter (fun m => (Key.index? m.1).isSome) = [] :=
        List.filter_eq_nil_iff.mpr fun m' hm' => by simp [hNone m' hm']
      have hAll : rest.filter (fun m => (Key.index? m.1).isNone) = rest :=
        List.filter_eq_self.mpr fun m' hm' => by simp [hNone m' hm']
      simp [hIndex, hNoIndex, hAll]

/-- Members in order stay as they are. -/
theorem indicesFirst_of_arranged (h : Arranged members) : indicesFirst members = members := by
  unfold indicesFirst
  dsimp only
  change ((indexed members).mergeSort fun a b => a.1 ≤ b.1).map (·.2) ++ _ = _
  rw [List.mergeSort_of_pairwise (pairwise_indexed h), map_snd_indexed]
  exact filter_append_filter h

theorem arrange_of_arranged [DecidableEq κ] (h : Arranged members) :
    arrange members = members := by
  rw [arrange, Table.ofList_of_nodup h.nodup, indicesFirst_of_arranged h]

/-- Arranging loses no member and adds none. -/
theorem arrange_perm [DecidableEq κ] (hNodup : (members.map (·.1)).Nodup) :
    (arrange members).Perm members := by
  rw [arrange, Table.ofList_of_nodup hNodup]
  exact indicesFirst_perm members

end Json

end Tern
