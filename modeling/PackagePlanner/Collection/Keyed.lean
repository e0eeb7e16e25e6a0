/-!
Lists whose entries have distinct keys and keep the order in which the keys first came.

* `Keyed key` is such a list; `find?` looks a key up.
* `insert` puts an entry in the place of the one with its key, or else at the end; `erase` takes
  an entry out and keeps the order of the others.
* `map_insertInto` says what inserting does to the keys.
-/

namespace PackagePlanner

/-- Entries in order of first insertion, at most one for each key. -/
structure Keyed {α : Type} {κ : Type} (key : α → κ) where
  toList : List α := []
  nodup : (toList.map key).Nodup := by simp

namespace Keyed

variable {α κ : Type} {key : α → κ}

instance : Inhabited (Keyed key) := ⟨{}⟩

instance [DecidableEq α] : DecidableEq (Keyed key) := fun a b =>
  if h : a.toList = b.toList then
    isTrue (by cases a; cases b; simp_all)
  else isFalse (by rintro rfl; exact h rfl)

@[ext] theorem ext {a b : Keyed key} (h : a.toList = b.toList) : a = b := by
  cases a
  cases b
  simp_all

/-- The list without entries. -/
def empty : Keyed key := {}

@[simp] theorem toList_empty : (empty : Keyed key).toList = [] := rfl

/-- The keys in order. -/
def keys (entries : Keyed key) : List κ := entries.toList.map key

section

variable [DecidableEq κ]

/-- The entry with a key. -/
def find? (entries : Keyed key) (k : κ) : Option α :=
  entries.toList.find? fun a => key a == k

/-- Whether there is an entry with a key. -/
def contains (entries : Keyed key) (k : κ) : Bool :=
  entries.toList.any fun a => key a == k

/-- The list with `a` in the place of the entry with its key, or at the end. -/
def insertInto (key : α → κ) (a : α) : List α → List α
  | [] => [a]
  | b :: rest => if key b = key a then a :: rest else b :: insertInto key a rest

/-- Inserting changes the keys only by a new one at the end. -/
theorem map_insertInto (a : α) (as : List α) :
    (insertInto key a as).map key =
      if key a ∈ as.map key then as.map key else as.map key ++ [key a] := by
  induction as with
  | nil => simp [insertInto]
  | cons b rest ih =>
    by_cases h : key b = key a
    · simp [insertInto, h]
    · have h' : ¬ key a = key b := fun e => h e.symm
      simp only [insertInto, h, if_false, List.map_cons, ih, List.mem_cons, h', false_or]
      split <;> simp

theorem mem_insertInto {a b : α} {as : List α} (h : b ∈ insertInto key a as) :
    b = a ∨ b ∈ as := by
  induction as with
  | nil => simpa [insertInto] using h
  | cons c rest ih =>
    simp only [insertInto] at h
    split at h
    · rcases List.mem_cons.mp h with rfl | h
      · exact .inl rfl
      · exact .inr (List.mem_cons_of_mem _ h)
    · rcases List.mem_cons.mp h with rfl | h
      · exact .inr List.mem_cons_self
      · exact (ih h).imp_right (List.mem_cons_of_mem _)

/-- Puts an entry in the place of the one with its key, or at the end if there is none. -/
def insert (entries : Keyed key) (a : α) : Keyed key where
  toList := insertInto key a entries.toList
  nodup := by
    rw [map_insertInto]
    split
    · exact entries.nodup
    · rename_i h
      exact List.nodup_append.mpr ⟨entries.nodup, by simp, by
        intro k hk k' hk'
        rw [List.mem_singleton] at hk'
        subst hk'
        exact fun e => h (e ▸ hk)⟩

/-- Takes out the entry with a key. -/
def erase (entries : Keyed key) (k : κ) : Keyed key where
  toList := entries.toList.filter fun a => key a != k
  nodup := entries.nodup.sublist (List.filter_sublist.map key)

/-- The entries of a list, the last one with a key in the place of the first. -/
def ofList (as : List α) : Keyed key :=
  as.foldl insert empty

/-- Whether two lists have the same entries, in any order. -/
def sameEntries (agree : α → α → Bool) (a b : Keyed key) : Bool :=
  a.toList.length == b.toList.length &&
    a.toList.all fun x => (b.find? (key x)).any (agree x)

theorem mem_of_find? {entries : Keyed key} {k : κ} {a : α} (h : entries.find? k = some a) :
    a ∈ entries.toList :=
  List.mem_of_find?_eq_some h

theorem key_of_find? {entries : Keyed key} {k : κ} {a : α} (h : entries.find? k = some a) :
    key a = k := by
  simpa using List.find?_some h

/-- After an insertion there is an entry with the new key besides the old ones. -/
theorem contains_insert {entries : Keyed key} {a : α} {k : κ} :
    (entries.insert a).contains k = (entries.contains k || key a == k) := by
  have into (as : List α) : (insertInto key a as).any (fun b => key b == k) =
      (as.any (fun b => key b == k) || key a == k) := by
    induction as with
    | nil => simp [insertInto]
    | cons b rest ih =>
      simp only [insertInto]
      split
      · rename_i h
        simp only [List.any_cons, h]
        cases key a == k <;> simp
      · simp only [List.any_cons, ih, Bool.or_assoc]
  exact into entries.toList

theorem mem_insert {entries : Keyed key} {a b : α} (h : b ∈ (entries.insert a).toList) :
    b = a ∨ b ∈ entries.toList :=
  mem_insertInto h

end

/-- The entries that pass a test, in their order. -/
def filter (entries : Keyed key) (test : α → Bool) : Keyed key where
  toList := entries.toList.filter test
  nodup := entries.nodup.sublist (List.filter_sublist.map key)

end Keyed

end PackagePlanner
