import Mathlib.Data.List.Basic
import Mathlib.Data.List.Induction
import StreamLang.OrderedMap

/-!
The map that a list of pairs stands for.

A map `Collects` pairs when it has their keys, each where it occurs first, and gives every key the
value of its last occurrence. There is exactly one such map, the one that inserting the pairs in
order builds (`OrderedMap.collects_iff`).
-/

namespace StreamLang.OrderedMap

/-! ## Entries and lookup -/

theorem ext_entries {α β : Type} {m n : OrderedMap α β} (entries : m.entries = n.entries) :
    m = n := by
  cases m
  cases n
  cases entries
  rfl

variable {α β : Type} [DecidableEq α] {m n : OrderedMap α β} {pairs : List (α × β)}

theorem lookup_of_mem {entries : List (α × β)} (nodup : (entries.map Prod.fst).Nodup) {e : α × β}
    (member : e ∈ entries) : entries.lookup e.1 = some e.2 := by
  induction entries with
  | nil => cases member
  | cons a entries ih =>
      simp only [List.map_cons, List.nodup_cons] at nodup
      rcases List.mem_cons.mp member with rfl | later
      · exact List.lookup_cons_self
      · have apart : (e.1 == a.1) = false := by
          refine beq_eq_false_iff_ne.mpr fun same => nodup.1 ?_
          rw [← same]
          exact List.mem_map_of_mem later
        rw [List.lookup_cons, apart]
        exact ih nodup.2 later

theorem mem_entries_of_get? {k : α} {v : β} (found : m.get? k = some v) : (k, v) ∈ m.entries := by
  unfold get? at found
  generalize m.entries = entries at found
  induction entries with
  | nil => cases found
  | cons e entries ih =>
      obtain ⟨a, b⟩ := e
      by_cases same : k = a
      · subst same
        rw [List.lookup_cons_self] at found
        cases found
        exact List.mem_cons_self
      · rw [List.lookup_cons, beq_eq_false_iff_ne.mpr same] at found
        exact List.mem_cons_of_mem _ (ih found)

/-- The entries are the keys with their values. -/
theorem entries_eq_map (m : OrderedMap α β) :
    m.entries.map (fun e => (e.1, some e.2)) = m.keys.map fun k => (k, m.get? k) := by
  rw [keys, List.map_map]
  refine List.map_congr_left fun e member => ?_
  rw [Function.comp_apply, get?, lookup_of_mem m.nodup_keys member]

theorem ext_get? (keys : m.keys = n.keys) (values : ∀ k, m.get? k = n.get? k) : m = n := by
  have entries : m.entries = n.entries := by
    have same := entries_eq_map m
    rw [keys] at same
    simp only [values, ← entries_eq_map n] at same
    refine List.map_injective_iff.mpr ?_ same
    rintro ⟨a, b⟩ ⟨a', b'⟩ equal
    cases equal
    rfl
  exact ext_entries entries

theorem contains_iff_mem_keys {k : α} : m.contains k = true ↔ k ∈ m.keys := by
  rw [contains, get?, List.lookup_isSome_iff, keys, List.mem_map]
  constructor
  · rintro ⟨e, member, same⟩
    exact ⟨e, member, (beq_iff_eq.mp same).symm⟩
  · rintro ⟨e, member, rfl⟩
    exact ⟨e, member, beq_self_eq_true _⟩

theorem insertEntry_of_not_mem {k : α} {v : β} {entries : List (α × β)}
    (fresh : k ∉ entries.map Prod.fst) : insertEntry k v entries = entries ++ [(k, v)] := by
  induction entries with
  | nil => rfl
  | cons e entries ih =>
      simp only [List.map_cons, List.mem_cons, not_or] at fresh
      rw [insertEntry, if_neg (Ne.symm fresh.1), ih fresh.2, List.cons_append]

theorem insertEntry_of_mem {k : α} {v : β} {entries : List (α × β)}
    (nodup : (entries.map Prod.fst).Nodup) (known : k ∈ entries.map Prod.fst) :
    insertEntry k v entries = entries.map fun e => if e.1 = k then (k, v) else e := by
  induction entries with
  | nil => cases known
  | cons e entries ih =>
      rw [List.map_cons, List.nodup_cons] at nodup
      by_cases same : e.1 = k
      · have apart : ∀ e' ∈ entries, ¬ e'.1 = k := fun e' member equal =>
          nodup.1 (same.trans equal.symm ▸ List.mem_map_of_mem member)
        have kept : entries.map (fun e => if e.1 = k then (k, v) else e) = entries :=
          (List.map_congr_left fun e' member => if_neg (apart e' member)).trans (List.map_id _)
        rw [insertEntry, if_pos same, List.map_cons, if_pos same, kept]
      · have later : k ∈ entries.map Prod.fst := by
          rcases List.mem_cons.mp known with first | later
          · exact absurd first.symm same
          · exact later
        rw [insertEntry, if_neg same, List.map_cons, if_neg same, ih nodup.2 later]

theorem entries_insert (m : OrderedMap α β) (k : α) (v : β) :
    (m.insert k v).entries = insertEntry k v m.entries := rfl

/-- Inserting a new key appends its entry. -/
theorem entries_insert_of_not_contains {k : α} {v : β} (fresh : m.contains k = false) :
    (m.insert k v).entries = m.entries ++ [(k, v)] :=
  insertEntry_of_not_mem fun known => by
    rw [contains_iff_mem_keys.mpr known] at fresh
    cases fresh

/-! ## Collecting pairs -/

/-- The map has every key of the pairs once, in order of first occurrence, and gives it the value of
its last occurrence. -/
structure Collects (m : OrderedMap α β) (pairs : List (α × β)) : Prop where
  keys : m.keys = (pairs.map Prod.fst).eraseDups
  get? : ∀ k, m.get? k = pairs.reverse.lookup k

theorem ofList_concat (pairs : List (α × β)) (e : α × β) :
    ofList (pairs ++ [e]) = (ofList pairs).insert e.1 e.2 := by
  simp [ofList]

/-- Inserting pairs in order collects them. -/
theorem collects_ofList (pairs : List (α × β)) : (ofList pairs).Collects pairs := by
  induction pairs using List.reverseRecOn with
  | nil => exact ⟨rfl, fun _ => rfl⟩
  | append_singleton pairs e ih =>
      rw [ofList_concat]
      constructor
      · rw [keys_insert, ih.keys, List.map_append, List.eraseDups_append]
        by_cases known : e.1 ∈ pairs.map Prod.fst
        · simp [known, List.removeAll]
        · simp [known, List.removeAll, List.eraseDups_cons]
      · intro k
        rw [get?_insert, ih.get?, List.reverse_append, List.reverse_singleton,
          List.singleton_append, List.lookup_cons]
        by_cases same : k = e.1
        · simp [same]
        · simp [same, beq_eq_false_iff_ne.mpr same]

/-- Pairs are collected by one map only. -/
theorem collects_iff : m.Collects pairs ↔ m = ofList pairs := by
  constructor
  · intro collects
    have built := collects_ofList pairs
    exact ext_get? (collects.keys.trans built.keys.symm)
      fun k => (collects.get? k).trans (built.get? k).symm
  · rintro rfl
    exact collects_ofList pairs

theorem entries_ofList (nodup : (pairs.map Prod.fst).Nodup) : (ofList pairs).entries = pairs := by
  induction pairs using List.reverseRecOn with
  | nil => rfl
  | append_singleton pairs e ih =>
      rw [List.map_append, List.nodup_append] at nodup
      have fresh : e.1 ∉ pairs.map Prod.fst := fun known =>
        nodup.2.2 e.1 known e.1 (by simp) rfl
      rw [ofList_concat, entries_insert, ih nodup.1, insertEntry_of_not_mem fresh]

theorem collects_entries (m : OrderedMap α β) : m.Collects m.entries :=
  collects_iff.mpr (ext_entries (entries_ofList m.nodup_keys).symm)

end StreamLang.OrderedMap
