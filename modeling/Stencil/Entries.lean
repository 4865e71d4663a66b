/-!
# Lists of entries

Maps with few keys are lists of pairs, searched from the front. `put` keeps the place of a key that
is there already and appends a new one.
-/

namespace Stencil.Entries

variable {κ ν : Type} [DecidableEq κ]

/-- Sets `key`: in its place if it is there, at the end otherwise. -/
def put (key : κ) (value : ν) : List (κ × ν) → List (κ × ν)
  | [] => [(key, value)]
  | (k, v) :: rest => if k = key then (key, value) :: rest else (k, v) :: put key value rest

theorem lookup_cons_eq (key k : κ) (v : ν) (rest : List (κ × ν)) :
    ((k, v) :: rest).lookup key = if key = k then some v else rest.lookup key := by
  rw [List.lookup_cons]
  by_cases h : key = k
  · rw [if_pos h, beq_iff_eq.mpr h]
  · rw [if_neg h, beq_eq_false_iff_ne.mpr h]

theorem mem_of_lookup {k : κ} {v : ν} {entries : List (κ × ν)} (h : entries.lookup k = some v) :
    (k, v) ∈ entries := by
  obtain ⟨_, _, rfl, _⟩ := List.lookup_eq_some_iff.mp h
  exact List.mem_append_right _ (List.mem_cons_self ..)

/-- Where no key is repeated, every entry is the one that is found. -/
theorem lookup_of_mem {k : κ} {v : ν} {entries : List (κ × ν)}
    (hd : (entries.map Prod.fst).Nodup) (h : (k, v) ∈ entries) : entries.lookup k = some v := by
  induction entries with
  | nil => cases h
  | cons e rest ih =>
    obtain ⟨k', v'⟩ := e
    obtain ⟨hk, hd⟩ := List.nodup_cons.mp hd
    rw [lookup_cons_eq]
    rcases List.mem_cons.mp h with h | h
    · cases h
      rw [if_pos rfl]
    · have hne : k ≠ k' := fun hkk => hk (List.mem_map.mpr ⟨(k, v), h, hkk⟩)
      rw [if_neg hne]
      exact ih hd h

theorem mem_keys_iff {k : κ} {entries : List (κ × ν)} :
    k ∈ entries.map Prod.fst ↔ ∃ v, entries.lookup k = some v := by
  rw [← Option.isSome_iff_exists, List.lookup_isSome_iff]
  simp

theorem lookup_put (key k : κ) (value : ν) (entries : List (κ × ν)) :
    (put key value entries).lookup k = if k = key then some value else entries.lookup k := by
  induction entries with
  | nil => rw [put, lookup_cons_eq]
  | cons e rest ih =>
    obtain ⟨k', v⟩ := e
    unfold put
    split
    · subst_vars
      simp only [lookup_cons_eq]
      split <;> rfl
    · simp only [lookup_cons_eq, ih]
      grind

theorem put_of_notMem {key : κ} {entries : List (κ × ν)} (h : key ∉ entries.map Prod.fst)
    (value : ν) : put key value entries = entries ++ [(key, value)] := by
  induction entries with
  | nil => rfl
  | cons e rest ih =>
    obtain ⟨hne, hrest⟩ := not_or.mp (mt List.mem_cons.mpr h)
    rw [put, if_neg fun he => hne he.symm, ih hrest]
    rfl

/-- A key that is there keeps its place. -/
theorem exists_put_eq {key : κ} {v : ν} {entries : List (κ × ν)}
    (h : entries.lookup key = some v) : ∃ before after, entries = before ++ (key, v) :: after ∧
      ∀ value, put key value entries = before ++ (key, value) :: after := by
  induction entries with
  | nil => cases h
  | cons e rest ih =>
    obtain ⟨k, w⟩ := e
    rw [lookup_cons_eq] at h
    split at h
    · rename_i hk
      cases h
      exact ⟨[], rest, by rw [hk]; rfl, fun value => by rw [put, if_pos hk.symm]; rfl⟩
    · rename_i hk
      obtain ⟨before, after, rfl, hput⟩ := ih h
      exact ⟨(k, w) :: before, after, rfl, fun value => by
        rw [put, if_neg (Ne.symm hk), hput]; rfl⟩

theorem mem_put {key : κ} {value : ν} {entries : List (κ × ν)} {e : κ × ν}
    (h : e ∈ put key value entries) : e = (key, value) ∨ e ∈ entries := by
  induction entries with
  | nil => exact .inl (List.mem_singleton.mp h)
  | cons e' rest ih =>
    obtain ⟨k, v⟩ := e'
    unfold put at h
    split at h
    · rcases List.mem_cons.mp h with h | h
      · exact .inl h
      · exact .inr (List.mem_cons_of_mem _ h)
    · rcases List.mem_cons.mp h with h | h
      · exact .inr (h ▸ List.mem_cons_self ..)
      · exact (ih h).imp_right (List.mem_cons_of_mem _)

theorem keys_put (key : κ) (value : ν) (entries : List (κ × ν)) :
    (put key value entries).map Prod.fst =
      if key ∈ entries.map Prod.fst then entries.map Prod.fst
      else entries.map Prod.fst ++ [key] := by
  induction entries with
  | nil => simp [put]
  | cons e rest ih =>
    obtain ⟨k, v⟩ := e
    unfold put
    by_cases h : k = key
    · simp [h]
    · rw [if_neg h, List.map_cons, ih]
      by_cases hm : key ∈ rest.map Prod.fst <;> grind

end Stencil.Entries
