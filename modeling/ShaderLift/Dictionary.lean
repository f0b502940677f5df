/-!
Dictionaries from texts to values, sorted by key. Keys are ordered by their characters' code
points, which is also the order of their UTF-8 bytes. Sorting makes the list of entries determine
the dictionary.
-/

namespace ShaderLift

/-- Strictly increasing keys. -/
def KeysIncrease {α : Type} (entries : List (String × α)) : Prop :=
  entries.Pairwise fun a b => a.1 < b.1

/-- Puts a value under a key into sorted entries, in place of the one that was there. -/
def insertEntry {α : Type} (key : String) (value : α) : List (String × α) → List (String × α)
  | [] => [(key, value)]
  | (k, v) :: rest =>
    if key < k then (key, value) :: (k, v) :: rest
    else if key = k then (key, value) :: rest
    else (k, v) :: insertEntry key value rest

theorem mem_insertEntry {α : Type} {key : String} {value : α} {entries : List (String × α)}
    {e : String × α} (h : e ∈ insertEntry key value entries) : e = (key, value) ∨ e ∈ entries := by
  induction entries with
  | nil => simpa [insertEntry] using h
  | cons first rest ih =>
    obtain ⟨k, v⟩ := first
    simp only [insertEntry] at h
    split at h
    · simpa using h
    · split at h
      · rcases List.mem_cons.1 h with h | h
        · exact .inl h
        · exact .inr (List.mem_cons_of_mem _ h)
      · rcases List.mem_cons.1 h with h | h
        · exact .inr (h ▸ List.mem_cons_self)
        · exact (ih h).imp id (List.mem_cons_of_mem _)

theorem KeysIncrease.insertEntry {α : Type} {entries : List (String × α)}
    (h : KeysIncrease entries) (key : String) (value : α) :
    KeysIncrease (insertEntry key value entries) := by
  induction entries with
  | nil => simp [ShaderLift.insertEntry, KeysIncrease]
  | cons first rest ih =>
    obtain ⟨k, v⟩ := first
    have hrest := (List.pairwise_cons.1 h).1
    have hsorted := (List.pairwise_cons.1 h).2
    simp only [ShaderLift.insertEntry]
    split
    next hlt =>
      refine List.pairwise_cons.2 ⟨fun e he => ?_, h⟩
      rcases List.mem_cons.1 he with rfl | he
      · exact hlt
      · exact String.lt_trans hlt (hrest e he)
    next hnlt =>
      split
      next heq => exact List.pairwise_cons.2 ⟨fun e he => heq ▸ hrest e he, hsorted⟩
      next hne =>
        refine List.pairwise_cons.2 ⟨fun e he => ?_, ih hsorted⟩
        rcases mem_insertEntry he with rfl | he
        · exact Std.lt_of_le_of_ne (String.not_lt.1 hnlt) (Ne.symm hne)
        · exact hrest e he

/-- A dictionary from texts to values. -/
structure Dictionary (α : Type) where
  entries : List (String × α) := []
  increase : KeysIncrease entries := by exact List.Pairwise.nil

namespace Dictionary

variable {α : Type}

def get? (d : Dictionary α) (key : String) : Option α := d.entries.lookup key

def insert (d : Dictionary α) (key : String) (value : α) : Dictionary α :=
  ⟨insertEntry key value d.entries, d.increase.insertEntry key value⟩

def erase (d : Dictionary α) (key : String) : Dictionary α :=
  ⟨d.entries.filter fun e => e.1 ≠ key, d.increase.filter _⟩

/-- Of several values under one key the last counts. -/
def ofList (entries : List (String × α)) : Dictionary α :=
  entries.foldl (fun d e => d.insert e.1 e.2) {}

@[ext]
theorem ext {a b : Dictionary α} (h : a.entries = b.entries) : a = b := by
  cases a
  cases b
  cases h
  rfl

end Dictionary
end ShaderLift
