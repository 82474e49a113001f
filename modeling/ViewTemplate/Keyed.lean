/-! # Keyed values in order of insertion

A key keeps the place of its first insertion; a later value for it replaces the earlier one in place.
The keys are pairwise distinct by construction, so the entries in order determine the map.
-/

namespace ViewTemplate

universe u v

/-- Values by key, in the order in which the keys were first inserted. -/
structure Keyed (α : Type u) where
  entries : List (String × α) := []
  distinct : (entries.map Prod.fst).Nodup := by exact List.nodup_nil

namespace Keyed

variable {α : Type u} {β : Type v}

@[ext] theorem ext {m n : Keyed α} (h : m.entries = n.entries) : m = n := by
  cases m
  cases n
  cases h
  rfl

instance : Inhabited (Keyed α) := ⟨{}⟩

instance [DecidableEq α] : DecidableEq (Keyed α) := fun m n =>
  decidable_of_iff (m.entries = n.entries) ⟨ext, fun h => h ▸ rfl⟩

def empty : Keyed α := {}

def isEmpty (m : Keyed α) : Bool := m.entries.isEmpty

def keys (m : Keyed α) : List String := m.entries.map Prod.fst

def values (m : Keyed α) : List α := m.entries.map Prod.snd

def get? (m : Keyed α) (key : String) : Option α := m.entries.lookup key

def contains (m : Keyed α) (key : String) : Bool := (m.get? key).isSome

/-- Replaces the value of a key in place, or adds the pair at the end. -/
def put (key : String) (value : α) : List (String × α) → List (String × α)
  | [] => [(key, value)]
  | e :: es => if e.1 = key then (key, value) :: es else e :: put key value es

theorem map_fst_put (key : String) (value : α) (es : List (String × α)) :
    (put key value es).map Prod.fst =
      if key ∈ es.map Prod.fst then es.map Prod.fst else es.map Prod.fst ++ [key] := by
  induction es with
  | nil => simp [put]
  | cons e es ih =>
      by_cases h : e.1 = key
      · simp [put, h]
      · have h' : ¬ key = e.1 := fun he => h he.symm
        simp only [put, h, if_false, List.map_cons, List.mem_cons, h', false_or, ih]
        split <;> simp

def insert (m : Keyed α) (key : String) (value : α) : Keyed α where
  entries := put key value m.entries
  distinct := by
    rw [map_fst_put]
    split
    · exact m.distinct
    · rename_i h
      rw [List.nodup_append]
      refine ⟨m.distinct, by simp, ?_⟩
      intro a ha b hb hab
      simp only [List.mem_singleton] at hb
      subst hb
      subst hab
      exact h ha

/-- Removes a key; the others keep their order. -/
def erase (m : Keyed α) (key : String) : Keyed α where
  entries := m.entries.filter fun e => e.1 ≠ key
  distinct := List.Nodup.sublist (List.filter_sublist.map Prod.fst) m.distinct

def map (f : α → β) (m : Keyed α) : Keyed β where
  entries := m.entries.map fun e => (e.1, f e.2)
  distinct := by
    have h := m.distinct
    rwa [show m.entries.map Prod.fst = (m.entries.map fun e => (e.1, f e.2)).map Prod.fst by
      simp] at h

/-- Inserts the pairs from the first to the last. -/
def ofList (es : List (String × α)) : Keyed α :=
  es.foldl (fun m e => m.insert e.1 e.2) {}

@[simp] theorem entries_insert (m : Keyed α) (key : String) (value : α) :
    (m.insert key value).entries = put key value m.entries := rfl

theorem lookup_put (key k : String) (value : α) (es : List (String × α)) :
    (put key value es).lookup k = if k = key then some value else es.lookup k := by
  induction es with
  | nil =>
      by_cases hk : k = key
      · simp [put, hk]
      · simp [put, List.lookup_cons, hk, beq_eq_false_iff_ne.2 hk]
  | cons e es ih =>
      obtain ⟨name, v⟩ := e
      by_cases h : name = key
      · by_cases hk : k = key
        · simp [put, h, hk]
        · simp [put, h, List.lookup_cons, hk, beq_eq_false_iff_ne.2 hk]
      · by_cases hk : k = key
        · subst hk
          have hne : (k == name) = false := beq_eq_false_iff_ne.2 (Ne.symm h)
          simpa [put, h, List.lookup_cons, hne] using ih
        · simp only [put, h, if_false, List.lookup_cons, ih, hk]

/-- A look-up after an insertion finds the new value at its key and the old ones elsewhere. -/
theorem get?_insert (m : Keyed α) (key k : String) (value : α) :
    (m.insert key value).get? k = if k = key then some value else m.get? k :=
  lookup_put key k value m.entries

theorem mem_values_of_get? {m : Keyed α} {key : String} {value : α} (h : m.get? key = some value) :
    value ∈ m.values := by
  obtain ⟨before, after, he, -⟩ := List.lookup_eq_some_iff.mp h
  rw [values, he]
  simp

/-- Each value is found at some key. -/
theorem exists_get?_of_mem_values {m : Keyed α} {value : α} (h : value ∈ m.values) :
    ∃ key, m.get? key = some value := by
  obtain ⟨entries, distinct⟩ := m
  simp only [values, get?] at h ⊢
  induction entries with
  | nil => cases h
  | cons e es ih =>
      rw [List.map_cons, List.nodup_cons] at distinct
      rcases List.mem_cons.mp h with rfl | h
      · exact ⟨e.1, List.lookup_cons_self⟩
      · obtain ⟨key, hkey⟩ := ih distinct.2 h
        refine ⟨key, ?_⟩
        have hne : key ≠ e.1 := by
          rintro rfl
          obtain ⟨before, after, he, -⟩ := List.lookup_eq_some_iff.mp hkey
          apply distinct.1
          rw [he]
          simp
        rw [List.lookup_cons, beq_eq_false_iff_ne.mpr hne]
        exact hkey

/-- What is among no pairs is not found. -/
theorem get?_ofList_eq_none {es : List (String × α)} {key : String} (h : ∀ e ∈ es, e.1 ≠ key) :
    (ofList es).get? key = none := by
  have hfold (m : Keyed α) (hm : m.get? key = none) :
      (es.foldl (fun m e => m.insert e.1 e.2) m).get? key = none := by
    induction es generalizing m with
    | nil => exact hm
    | cons e es ih =>
        refine ih (fun f hf => h f (List.mem_cons_of_mem e hf)) _ ?_
        rw [get?_insert, if_neg (h e List.mem_cons_self).symm]
        exact hm
  exact hfold {} rfl

theorem mem_map_snd_put {key : String} {value v : α} {es : List (String × α)}
    (h : v ∈ (put key value es).map Prod.snd) : v ∈ es.map Prod.snd ∨ v = value := by
  induction es with
  | nil =>
      right
      simpa [put] using h
  | cons e es ih =>
      rw [put] at h
      split at h
      · rcases List.mem_cons.mp h with h | h
        · exact .inr h
        · exact .inl (List.mem_cons_of_mem _ h)
      · rcases List.mem_cons.mp h with h | h
        · exact .inl (h ▸ List.mem_cons_self)
        · exact (ih h).imp_left (List.mem_cons_of_mem _)

/-- A value after an insertion is an old one or the new one. -/
theorem mem_values_insert {m : Keyed α} {key : String} {value v : α}
    (h : v ∈ (m.insert key value).values) : v ∈ m.values ∨ v = value :=
  mem_map_snd_put h

theorem nodup_map_snd_put {key : String} {value : α} {es : List (String × α)}
    (h : (es.map Prod.snd).Nodup) (hv : value ∉ es.map Prod.snd) :
    ((put key value es).map Prod.snd).Nodup := by
  induction es with
  | nil => simp [put]
  | cons e es ih =>
      rw [List.map_cons, List.nodup_cons] at h
      rw [List.map_cons, List.mem_cons, not_or] at hv
      rw [put]
      split
      · rw [List.map_cons, List.nodup_cons]
        exact ⟨hv.2, h.2⟩
      · rw [List.map_cons, List.nodup_cons]
        refine ⟨?_, ih h.2 hv.2⟩
        intro he
        rcases mem_map_snd_put he with he | he
        · exact h.1 he
        · exact hv.1 he.symm

/-- The insertion of a new value keeps the values distinct. -/
theorem nodup_values_insert {m : Keyed α} {key : String} {value : α} (h : m.values.Nodup)
    (hv : value ∉ m.values) : (m.insert key value).values.Nodup :=
  nodup_map_snd_put h hv

theorem put_eq_append {key : String} {value : α} {es : List (String × α)}
    (h : key ∉ es.map Prod.fst) : put key value es = es ++ [(key, value)] := by
  induction es with
  | nil => rfl
  | cons e es ih =>
      rw [List.map_cons, List.mem_cons, not_or] at h
      rw [put, if_neg (Ne.symm h.1), ih h.2, List.cons_append]

/-- Pairs with new and distinct keys are added at the end. -/
theorem entries_foldl_insert (es : List (String × α)) (m : Keyed α)
    (h : ((m.entries ++ es).map Prod.fst).Nodup) :
    (es.foldl (fun m e => m.insert e.1 e.2) m).entries = m.entries ++ es := by
  induction es generalizing m with
  | nil => rw [List.foldl_nil, List.append_nil]
  | cons e es ih =>
      have hnew : e.1 ∉ m.entries.map Prod.fst := by
        rw [List.map_append, List.map_cons, List.nodup_append] at h
        exact fun hmem => h.2.2 _ hmem _ List.mem_cons_self rfl
      have hentries : (m.insert e.1 e.2).entries = m.entries ++ [e] := put_eq_append hnew
      rw [List.foldl_cons, ih, hentries, List.append_assoc, List.singleton_append]
      rwa [hentries, List.append_assoc, List.singleton_append]

/-- A map is made again from its entries. -/
theorem ofList_entries (m : Keyed α) : ofList m.entries = m :=
  ext (entries_foldl_insert m.entries {} m.distinct)

end Keyed

end ViewTemplate
