/-!
# Association lists in insertion order

A finite map as the list of its entries, in the order in which the keys were first put.

* `Assoc.put` -- a key that is there keeps its place and takes the new value; a new key goes last.
* `Assoc.erase` -- an entry is dropped; a later `put` of its key goes last again.

Look-up is `List.lookup`.
-/

namespace Constructions.Assoc

variable {κ α : Type} [BEq κ]

/-- Gives `k` the value `v`, in the place of `k` or at the end. -/
def put (k : κ) (v : α) : List (κ × α) → List (κ × α)
  | [] => [(k, v)]
  | (j, w) :: rest => if j == k then (j, v) :: rest else (j, w) :: put k v rest

/-- The entries without that of `k`. -/
def erase (k : κ) (entries : List (κ × α)) : List (κ × α) := entries.filter fun e => !(e.1 == k)

variable [LawfulBEq κ]

@[simp] theorem lookup_put_self (k : κ) (v : α) (entries : List (κ × α)) :
    (put k v entries).lookup k = some v := by
  induction entries with
  | nil => simp [put]
  | cons e rest ih =>
    obtain ⟨j, w⟩ := e
    unfold put
    split
    · rename_i h
      have : j = k := by simpa using h
      subst this
      simp
    · rename_i h
      have hkj : (k == j) = false := by
        rw [beq_eq_false_iff_ne]
        rintro rfl
        simp at h
      simp [List.lookup_cons, hkj, ih]

theorem lookup_put_of_ne {k l : κ} (h : l ≠ k) (v : α) (entries : List (κ × α)) :
    (put k v entries).lookup l = entries.lookup l := by
  induction entries with
  | nil => simp [put, List.lookup_cons, beq_eq_false_iff_ne.mpr h]
  | cons e rest ih =>
    obtain ⟨j, w⟩ := e
    unfold put
    split
    · rename_i hj
      have : j = k := by simpa using hj
      subst this
      simp [List.lookup_cons, beq_eq_false_iff_ne.mpr h]
    · simp only [List.lookup_cons]
      split
      · rfl
      · exact ih

theorem lookup_erase [DecidableEq κ] (k l : κ) (entries : List (κ × α)) :
    (erase k entries).lookup l = if l = k then none else entries.lookup l := by
  unfold erase
  induction entries with
  | nil => simp
  | cons e rest ih =>
    obtain ⟨j, w⟩ := e
    by_cases hj : j = k
    · subst hj
      simp only [List.filter_cons, beq_self_eq_true, Bool.not_true, Bool.false_eq_true, if_false,
        ih]
      split
      · rfl
      · rename_i hl
        simp [List.lookup_cons, beq_eq_false_iff_ne.mpr hl]
    · simp only [List.filter_cons, beq_eq_false_iff_ne.mpr hj, Bool.not_false, if_true,
        List.lookup_cons, ih]
      by_cases hl : l = j
      · subst hl
        simp [hj]
      · simp [beq_eq_false_iff_ne.mpr hl]

/-- Where no key stands twice, look-up finds what is in the list. -/
theorem lookup_eq_some_iff_mem {k : κ} {v : α} {entries : List (κ × α)}
    (h : (entries.map (·.1)).Nodup) : entries.lookup k = some v ↔ (k, v) ∈ entries := by
  induction entries with
  | nil => simp
  | cons e rest ih =>
    obtain ⟨j, w⟩ := e
    rw [List.map_cons, List.nodup_cons] at h
    rw [List.lookup_cons, List.mem_cons, Prod.mk.injEq]
    cases hkj : k == j with
    | true =>
      have hk : k = j := by simpa using hkj
      subst hk
      have hrest : (k, v) ∉ rest := fun hmem => h.1 (List.mem_map.mpr ⟨_, hmem, rfl⟩)
      simp [hrest, eq_comm]
    | false =>
      have hne : k ≠ j := by
        rintro rfl
        simp at hkj
      simp [hne, ih h.2]

/-- What look-up finds is in the list, under the key. -/
theorem mem_of_lookup {k : κ} {v : α} {entries : List (κ × α)} (h : entries.lookup k = some v) :
    (k, v) ∈ entries := by
  obtain ⟨before, after, rfl, _⟩ := List.lookup_eq_some_iff.mp h
  exact List.mem_append_right before List.mem_cons_self

theorem mem_keys_of_lookup {k : κ} {v : α} {entries : List (κ × α)}
    (h : entries.lookup k = some v) : k ∈ entries.map (·.1) :=
  List.mem_map.mpr ⟨(k, v), mem_of_lookup h, rfl⟩

/-- A key that is there keeps its place, a new one goes last. -/
theorem keys_put (k : κ) (v : α) (entries : List (κ × α)) :
    (put k v entries).map (·.1)
      = if k ∈ entries.map (·.1) then entries.map (·.1) else entries.map (·.1) ++ [k] := by
  induction entries with
  | nil => simp [put]
  | cons e rest ih =>
    obtain ⟨j, w⟩ := e
    unfold put
    split
    · rename_i h
      have : j = k := by simpa using h
      subst this
      simp
    · rename_i h
      have hkj : k ≠ j := by
        rintro rfl
        simp at h
      simp only [List.map_cons, List.mem_cons, hkj, false_or, ih]
      split <;> simp

/-- A new key goes last. -/
theorem put_of_not_mem {k : κ} {entries : List (κ × α)} (h : k ∉ entries.map (·.1)) (v : α) :
    put k v entries = entries ++ [(k, v)] := by
  induction entries with
  | nil => rfl
  | cons e rest ih =>
    obtain ⟨j, w⟩ := e
    rw [List.map_cons, List.mem_cons, not_or] at h
    have hjk : ¬ (j == k) = true := fun hj => h.1 (beq_iff_eq.mp hj).symm
    rw [put, if_neg hjk, ih h.2, List.cons_append]

/-- Distinct keys that are new stand in the order in which they are put. -/
theorem foldl_put {entries more : List (κ × α)} (h : ((entries ++ more).map (·.1)).Nodup) :
    more.foldl (fun done e => put e.1 e.2 done) entries = entries ++ more := by
  induction more generalizing entries with
  | nil => simp
  | cons e more ih =>
    have hnew : e.1 ∉ entries.map (·.1) := by
      rw [List.map_append, List.nodup_append] at h
      exact fun hmem => h.2.2 e.1 hmem e.1 (by simp) rfl
    rw [List.foldl_cons, put_of_not_mem hnew, ih (by simpa using h), List.append_assoc,
      List.singleton_append]

theorem nodup_keys_put {k : κ} {v : α} {entries : List (κ × α)}
    (h : (entries.map (·.1)).Nodup) : ((put k v entries).map (·.1)).Nodup := by
  rw [keys_put]
  split
  · exact h
  · rename_i hk
    rw [List.nodup_append]
    refine ⟨h, by simp, fun j hj l hl => ?_⟩
    rw [List.mem_singleton.mp hl]
    exact fun heq => hk (heq ▸ hj)

/-- An entry that comes last is found where no earlier one has its key. -/
theorem lookup_append_one [DecidableEq κ] (entries : List (κ × α)) (k l : κ) (v : α) :
    (entries ++ [(k, v)]).lookup l = (entries.lookup l).or (if l = k then some v else none) := by
  rw [List.lookup_append, List.lookup_cons, List.lookup_nil]
  by_cases hl : l = k
  · rw [if_pos hl, beq_iff_eq.mpr hl]
  · rw [if_neg hl, beq_eq_false_iff_ne.mpr hl]

end Constructions.Assoc
