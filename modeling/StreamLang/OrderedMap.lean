/-!
Maps that remember the order in which their keys were first inserted.

Inserting a new key appends it, and inserting a known key replaces its value in place
(`keys_insert`). Each key occurs once, which the type carries.
-/

namespace StreamLang

/-- A finite map whose entries stand in the order of first insertion. -/
structure OrderedMap (α β : Type) where
  entries : List (α × β)
  nodup_keys : (entries.map Prod.fst).Nodup
  deriving DecidableEq, Repr

namespace OrderedMap

variable {α β : Type} [DecidableEq α]

/-- The map without entries. -/
def empty : OrderedMap α β := ⟨[], by simp⟩

instance : Inhabited (OrderedMap α β) := ⟨empty⟩

/-- The keys, in order of first insertion. -/
def keys (m : OrderedMap α β) : List α := m.entries.map Prod.fst

/-- The number of entries. -/
def size (m : OrderedMap α β) : Nat := m.entries.length

/-- Whether there is no entry. -/
def isEmpty (m : OrderedMap α β) : Bool := m.entries.isEmpty

/-- The value of a key. -/
def get? (m : OrderedMap α β) (k : α) : Option β := m.entries.lookup k

/-- Whether the key has a value. -/
def contains (m : OrderedMap α β) (k : α) : Bool := (m.get? k).isSome

/-! ## Insertion -/

/-- Replaces the value of the first entry with the key, or appends an entry. -/
def insertEntry (k : α) (v : β) : List (α × β) → List (α × β)
  | [] => [(k, v)]
  | e :: rest => if e.1 = k then (k, v) :: rest else e :: insertEntry k v rest

theorem keys_insertEntry (k : α) (v : β) (entries : List (α × β)) :
    (insertEntry k v entries).map Prod.fst =
      if k ∈ entries.map Prod.fst then entries.map Prod.fst else entries.map Prod.fst ++ [k] := by
  induction entries with
  | nil => simp [insertEntry]
  | cons e rest ih =>
      by_cases h : e.1 = k
      · simp [insertEntry, h]
      · have h' : ¬ k = e.1 := fun same => h same.symm
        simp only [insertEntry, h, if_false, List.map_cons, ih, List.mem_cons, h', false_or]
        split <;> simp

/-- Gives the key a value: in place when it is known, at the end when it is new. -/
def insert (m : OrderedMap α β) (k : α) (v : β) : OrderedMap α β :=
  ⟨insertEntry k v m.entries, by
    rw [keys_insertEntry]
    split
    · exact m.nodup_keys
    · next fresh =>
        rw [List.nodup_append]
        refine ⟨m.nodup_keys, by simp, ?_⟩
        intro a ha b hb same
        simp only [List.mem_singleton] at hb
        exact fresh (hb ▸ same ▸ ha)⟩

/-- Inserting keeps the keys and their order, and appends a new key. -/
theorem keys_insert (m : OrderedMap α β) (k : α) (v : β) :
    (m.insert k v).keys = if k ∈ m.keys then m.keys else m.keys ++ [k] :=
  keys_insertEntry k v m.entries

theorem get?_insert (m : OrderedMap α β) (k k' : α) (v : β) :
    (m.insert k v).get? k' = if k' = k then some v else m.get? k' := by
  have step : ∀ entries : List (α × β),
      (insertEntry k v entries).lookup k' = if k' = k then some v else entries.lookup k' := by
    intro entries
    induction entries with
    | nil => by_cases h : k' = k <;> simp [insertEntry, List.lookup_cons, h, beq_eq_false_iff_ne.2]
    | cons e rest ih =>
        obtain ⟨a, b⟩ := e
        by_cases hk : a = k
        · subst hk
          by_cases h : k' = a <;> simp [insertEntry, List.lookup_cons, h, beq_eq_false_iff_ne.2]
        · by_cases h : k' = a
          · subst h; simp [insertEntry, hk]
          · simp [insertEntry, hk, List.lookup_cons, beq_eq_false_iff_ne.2 h, ih]
  exact step m.entries

/-- The map that the pairs build, inserted in order. -/
def ofList (pairs : List (α × β)) : OrderedMap α β :=
  pairs.foldl (fun m e => m.insert e.1 e.2) empty

/-- Whether two maps give every key the same value, in whatever order. -/
def sameEntries [BEq β] (m n : OrderedMap α β) : Bool :=
  m.size == n.size && m.entries.all fun e => n.get? e.1 == some e.2

end OrderedMap

end StreamLang
