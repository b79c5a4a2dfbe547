import Mathlib.Data.List.Induction
import Mathlib.Tactic.Common
import Unary.Proofs.Evaluation

/-!
What look-ups find: in a table, in a table whose values have been changed one by one, and in the values
that the parameters of a call are bound to. A table made by insertions has every name once.
-/

namespace Unary

namespace Table

variable {α β : Type}

theorem mem_entries_of_get? {t : Table α} {name : String} {value : α}
    (h : t.get? name = some value) : (name, value) ∈ t.entries := by
  obtain ⟨entries⟩ := t
  change findEntry name entries = some value at h
  induction entries with
  | nil => simp [findEntry] at h
  | cons entry rest ih =>
    obtain ⟨key, old⟩ := entry
    by_cases hk : key = name
    · have hv : old = value := by simpa [findEntry, hk] using h
      simp [hk, hv]
    · have hr : findEntry name rest = some value := by simpa [findEntry, hk] using h
      exact List.mem_cons_of_mem _ (ih hr)

/-- A name has a value exactly when it is one of the names of the table. -/
theorem isSome_get?_iff (t : Table α) (name : String) :
    (t.get? name).isSome = true ↔ name ∈ t.names := by
  obtain ⟨entries⟩ := t
  change (findEntry name entries).isSome = true ↔ name ∈ entries.map Prod.fst
  induction entries with
  | nil => simp [findEntry]
  | cons entry rest ih =>
    obtain ⟨key, old⟩ := entry
    by_cases hk : key = name
    · simp [findEntry, hk]
    · simp only [findEntry, hk, if_false, List.map_cons, List.mem_cons, Ne.symm hk, false_or]
      exact ih

theorem mem_insertEntry {name : String} {value : α} {entry : String × α}
    {entries : List (String × α)} (h : entry ∈ insertEntry name value entries) :
    entry = (name, value) ∨ entry ∈ entries := by
  induction entries with
  | nil => simpa [insertEntry] using h
  | cons first rest ih =>
    obtain ⟨key, old⟩ := first
    by_cases hk : key = name
    · simp only [insertEntry, if_pos hk, List.mem_cons] at h
      exact h.imp_right (List.mem_cons_of_mem _)
    · simp only [insertEntry, if_neg hk, List.mem_cons] at h
      rcases h with rfl | h
      · exact .inr List.mem_cons_self
      · exact (ih h).imp_right (List.mem_cons_of_mem _)

theorem insertEntry_of_not_mem {name : String} {entries : List (String × α)}
    (h : name ∉ entries.map Prod.fst) (value : α) :
    insertEntry name value entries = entries ++ [(name, value)] := by
  induction entries with
  | nil => rfl
  | cons first rest ih =>
    obtain ⟨key, old⟩ := first
    simp only [List.map_cons, List.mem_cons, not_or] at h
    rw [insertEntry, if_neg (Ne.symm h.1), ih h.2, List.cons_append]

theorem nodup_names_insert {t : Table α} (h : t.names.Nodup) (name : String) (value : α) :
    (t.insert name value).names.Nodup := by
  rw [names_insert]
  split
  · exact h
  · next hn =>
    have hne : ∀ a ∈ t.names, a ≠ name := fun a ha he => hn (he ▸ ha)
    exact List.nodup_append.mpr ⟨h, by simp, by simpa using hne⟩

theorem nodup_names_foldl_insert (entries : List (String × α)) {t : Table α} (h : t.names.Nodup) :
    (entries.foldl (fun t entry => t.insert entry.1 entry.2) t).names.Nodup := by
  induction entries generalizing t with
  | nil => exact h
  | cons entry rest ih => exact ih (nodup_names_insert h entry.1 entry.2)

theorem mem_foldl_insert {entries : List (String × α)} {t : Table α} {entry : String × α}
    (h : entry ∈ (entries.foldl (fun t entry => t.insert entry.1 entry.2) t).entries) :
    entry ∈ t.entries ∨ entry ∈ entries := by
  induction entries generalizing t with
  | nil => exact .inl h
  | cons first rest ih =>
    rcases ih h with hm | hm
    · rcases mem_insertEntry hm with rfl | hm
      · exact .inr List.mem_cons_self
      · exact .inl hm
    · exact .inr (List.mem_cons_of_mem _ hm)

theorem foldl_insert_of_nodup (entries : List (String × α)) {t : Table α}
    (h : (t.names ++ entries.map Prod.fst).Nodup) :
    entries.foldl (fun t entry => t.insert entry.1 entry.2) t = ⟨t.entries ++ entries⟩ := by
  induction entries generalizing t with
  | nil => simp
  | cons first rest ih =>
    have hn : first.1 ∉ t.names := fun hm =>
      (List.nodup_append.mp h).2.2 _ hm _ List.mem_cons_self rfl
    have hi : t.insert first.1 first.2 = ⟨t.entries ++ [first]⟩ :=
      congrArg Table.mk (insertEntry_of_not_mem hn first.2)
    rw [List.foldl_cons, hi, ih]
    · simp
    · simpa [names] using h

theorem nodup_names_ofList (entries : List (String × α)) : (ofList entries).names.Nodup :=
  nodup_names_foldl_insert entries List.nodup_nil

theorem mem_of_mem_ofList {entries : List (String × α)} {entry : String × α}
    (h : entry ∈ (ofList entries).entries) : entry ∈ entries :=
  (mem_foldl_insert h).resolve_left List.not_mem_nil

/-- A table is made again from its entries. -/
theorem ofList_entries {t : Table α} (h : t.names.Nodup) : ofList t.entries = t :=
  foldl_insert_of_nodup t.entries (t := empty) h

/-- A look-up in the table of a list finds the last entry of the name. -/
theorem get?_ofList (entries : List (String × α)) (name : String) :
    (ofList entries).get? name =
      (entries.filterMap fun entry => if entry.1 = name then some entry.2 else none).getLast? := by
  induction entries using List.reverseRecOn with
  | nil => rfl
  | append_singleton rest last ih =>
    have hlast : ofList (rest ++ [last]) = (ofList rest).insert last.1 last.2 := by
      rw [ofList, List.foldl_append]
      rfl
    rw [hlast, get?_insert, List.filterMap_append, List.getLast?_append, ih]
    by_cases hn : last.1 = name
    · simp [hn]
    · simp [hn, Ne.symm hn]

/-- Change every value of a table. -/
def mapValues (f : α → β) (t : Table α) : Table β :=
  ⟨t.entries.map fun entry => (entry.1, f entry.2)⟩

theorem get?_mapValues (f : α → β) (t : Table α) (name : String) :
    (t.mapValues f).get? name = (t.get? name).map f := by
  obtain ⟨entries⟩ := t
  change findEntry name (entries.map fun entry => (entry.1, f entry.2)) =
    (findEntry name entries).map f
  induction entries with
  | nil => rfl
  | cons entry rest ih =>
    obtain ⟨key, old⟩ := entry
    by_cases hk : key = name
    · simp [findEntry, hk]
    · simp only [List.map_cons, findEntry, hk, if_false]
      exact ih

end Table

/-- The names that a call binds are its parameters and those bound before. -/
theorem isSome_get?_bindParams (values : Values) (params : List String) (ns : List Nat)
    (name : String) :
    ((bindParams values params ns).get? name).isSome = true ↔
      name ∈ params ∨ (values.get? name).isSome = true := by
  induction params generalizing values ns with
  | nil => simp [bindParams]
  | cons param params ih =>
    have key (n : Nat) (rest : List Nat) :
        ((bindParams (values.insert param n) params rest).get? name).isSome = true ↔
          name ∈ param :: params ∨ (values.get? name).isSome = true := by
      rw [ih, Table.get?_insert, List.mem_cons]
      by_cases hn : name = param <;> simp [hn]
    cases ns with
    | nil => exact key 0 []
    | cons n ns => exact key n ns

/-- Zeros after the arguments bind nothing that missing arguments do not bind. -/
theorem bindParams_append_zeros (values : Values) (params : List String) (ns : List Nat) (k : Nat) :
    bindParams values params (ns ++ List.replicate k 0) = bindParams values params ns := by
  induction params generalizing values ns k with
  | nil => rfl
  | cons param params ih =>
    cases ns with
    | cons n ns => exact ih (values.insert param n) ns k
    | nil =>
      cases k with
      | zero => rfl
      | succ k => exact ih (values.insert param 0) [] k

end Unary
