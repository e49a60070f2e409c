/-!
# Keyed tables

A `Table` holds at most one entry per key, the newest entry first.  It is seen through `get?`: the
lemmas `get?_insert` and `get?_erase` say what each operation does to that view, and `size_insert`
and `size_erase` what it does to the number of entries.
-/

namespace WaitFor

/-- A finite map from keys to values, kept as a list of entries with distinct keys, newest first. -/
structure Table (κ ν : Type) where
  entries : List (κ × ν) := []
  nodup_keys : (entries.map Prod.fst).Nodup := by simp
deriving DecidableEq, Repr

namespace Table

variable {κ ν : Type}

/-- The table without entries. -/
def empty : Table κ ν where

instance : Inhabited (Table κ ν) := ⟨empty⟩

/-- The number of entries. -/
def size (t : Table κ ν) : Nat := t.entries.length

/-- Whether the table has no entry. -/
def isEmpty (t : Table κ ν) : Bool := t.entries.isEmpty

/-- The keys that have an entry, newest first. -/
def keys (t : Table κ ν) : List κ := t.entries.map Prod.fst

@[simp]
theorem size_empty : (empty : Table κ ν).size = 0 := rfl

variable [DecidableEq κ]

/-- The value stored under `k`. -/
def get? (t : Table κ ν) (k : κ) : Option ν :=
  (t.entries.find? fun e => e.1 = k).map Prod.snd

/-- Whether `k` has an entry. -/
def contains (t : Table κ ν) (k : κ) : Bool := (t.get? k).isSome

/-- Drops the entry of `k`, if there is one. -/
def erase (t : Table κ ν) (k : κ) : Table κ ν where
  entries := t.entries.filter fun e => e.1 ≠ k
  nodup_keys := (List.filter_sublist.map Prod.fst).nodup t.nodup_keys

/-- Stores `v` under `k`, in the place of any earlier entry of `k`. -/
def insert (t : Table κ ν) (k : κ) (v : ν) : Table κ ν where
  entries := (k, v) :: (t.erase k).entries
  nodup_keys := by
    refine List.nodup_cons.2 ⟨?_, (t.erase k).nodup_keys⟩
    simp [erase]

@[simp]
theorem get?_empty (k : κ) : (empty : Table κ ν).get? k = none := rfl

/-- A key that is dropped has no entry, and the others keep theirs. -/
theorem get?_erase (t : Table κ ν) (k j : κ) :
    (t.erase k).get? j = if k = j then none else t.get? j := by
  unfold get? erase
  by_cases h : k = j
  · subst h; simp
  · simp only [h, if_false]
    congr 1
    induction t.entries with
    | nil => rfl
    | cons e es ih => by_cases he : e.1 = k <;> by_cases hj : e.1 = j <;> simp_all

/-- The entry stored last is the one that its key has; the other keys keep theirs. -/
theorem get?_insert (t : Table κ ν) (k j : κ) (v : ν) :
    (t.insert k v).get? j = if k = j then some v else t.get? j := by
  by_cases h : k = j
  · subst h; simp [get?, insert]
  · have := get?_erase t k j
    simp only [h, if_false] at this ⊢
    simpa [get?, insert, h] using this

/-- The keys are those that have an entry. -/
theorem mem_keys {t : Table κ ν} {k : κ} : k ∈ t.keys ↔ t.contains k = true := by
  simp only [keys, contains, get?, Option.isSome_map, List.find?_isSome, List.mem_map]
  simp

/-- An absent key's erasure changes nothing. -/
theorem erase_of_not_contains {t : Table κ ν} {k : κ} (h : t.contains k = false) :
    t.erase k = t := by
  have hk : k ∉ t.keys := fun hm => by simp [mem_keys, h] at hm
  obtain ⟨es, hn⟩ := t
  simp only [erase, mk.injEq, List.filter_eq_self]
  intro e he
  simpa using fun hek => hk (List.mem_map.2 ⟨e, he, hek⟩)

/-- Erasing a stored key drops exactly one entry. -/
theorem size_erase (t : Table κ ν) (k : κ) :
    (t.erase k).size = if t.contains k then t.size - 1 else t.size := by
  by_cases h : t.contains k = true
  · rw [if_pos h]
    obtain ⟨es, hn⟩ := t
    simp only [size, erase]
    simp only [contains, get?, Option.isSome_map, List.find?_isSome] at h
    induction es with
    | nil => simp at h
    | cons e es ih =>
      simp only [List.map_cons, List.nodup_cons] at hn
      by_cases he : e.1 = k
      -- The entry is the first one, and the keys are distinct, so all others stay.
      · have hall : es.filter (fun e => decide (e.1 ≠ k)) = es := by
          rw [List.filter_eq_self]
          intro x hx
          simpa using fun hxk => hn.1 (List.mem_map.2 ⟨x, hx, by rw [hxk, he]⟩)
        rw [List.filter_cons_of_neg (by simp [he]), hall, List.length_cons, Nat.add_sub_cancel]
      · obtain ⟨x, hx, hxk⟩ := h
        have hx' : x ∈ es := by
          rcases List.mem_cons.1 hx with rfl | hx'
          · exact absurd (by simpa using hxk) he
          · exact hx'
        have := ih hn.2 ⟨x, hx', hxk⟩
        have hpos : 0 < es.length := List.length_pos_of_mem hx'
        simp only [he, ne_eq, not_false_eq_true, decide_true, List.filter_cons_of_pos,
          List.length_cons]
        simp only [ne_eq] at this
        omega
  · rw [if_neg h, erase_of_not_contains (by simpa using h)]

/-- Storing under a new key adds one entry, under an old one none. -/
theorem size_insert (t : Table κ ν) (k : κ) (v : ν) :
    (t.insert k v).size = if t.contains k then t.size else t.size + 1 := by
  have hs : (t.insert k v).size = (t.erase k).size + 1 := by simp [size, insert]
  rw [hs, size_erase]
  by_cases h : t.contains k = true
  · have : 0 < t.size := by
      have := mem_keys.2 h
      simpa [size, keys] using List.length_pos_of_mem this
    simp only [h, if_true]
    omega
  · simp [h]

/-- Storing twice under one key keeps the second value only. -/
theorem insert_insert (t : Table κ ν) (k : κ) (v w : ν) :
    (t.insert k v).insert k w = t.insert k w := by
  simp [insert, erase]

/-- Storing after an erasure of the same key is storing at once. -/
theorem insert_erase (t : Table κ ν) (k : κ) (v : ν) :
    (t.erase k).insert k v = t.insert k v := by
  simp [insert, erase]

end Table

end WaitFor
