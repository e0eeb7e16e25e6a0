/-!
Lists in ascending order of a key that no two entries share.

* `Ascending key` is such a list; `find?` looks a key up.
* `insert` puts an entry in its place, instead of one with the same key; `erase` takes one out.
* All three cut the list at the key by bisection (`cut`). A cut loses nothing (`join_cut`), and in
  a list in ascending order it separates the smaller keys from the larger ones (`cut_ordered`).
-/

namespace PackagePlanner

/-- Entries in strictly ascending order of their keys. -/
structure Ascending {α : Type} {κ : Type} [Ord κ] (key : α → κ) where
  toList : List α := []
  ascending : toList.Pairwise fun a b => compare (key a) (key b) = .lt := by simp

namespace Ascending

variable {α κ : Type} [Ord κ] {key : α → κ}

instance : Inhabited (Ascending key) := ⟨{}⟩

@[ext] theorem ext {a b : Ascending key} (h : a.toList = b.toList) : a = b := by
  cases a
  cases b
  simp_all

instance [DecidableEq α] : DecidableEq (Ascending key) := fun a b =>
  if h : a.toList = b.toList then isTrue (ext h) else isFalse (by rintro rfl; exact h rfl)

/-- The list without entries. -/
def empty : Ascending key := {}

@[simp] theorem toList_empty : (empty : Ascending key).toList = [] := rfl

/-! ### The place of a key -/

/-- A list around the place of a key: what comes before it, the entry with the key if there is one,
and what comes after it. -/
structure Cut (α : Type) where
  before : List α := []
  found? : Option α := none
  after : List α := []

/-- All entries around a place. -/
def Cut.join (c : Cut α) : List α := c.before ++ (c.found?.toList ++ c.after)

/-- Cuts a list at a key. The entry in the middle has the key, or it tells in which half of the list
the key has its place. -/
def cut (key : α → κ) (k : κ) (as : List α) : Cut α :=
  match _split : as.drop (as.length / 2) with
  | [] => {}
  | middle :: last =>
    match compare (key middle) k with
    | .eq => { before := as.take (as.length / 2), found? := some middle, after := last }
    | .lt =>
      let c := cut key k last
      { c with before := as.take (as.length / 2) ++ middle :: c.before }
    | .gt =>
      let c := cut key k (as.take (as.length / 2))
      { c with after := c.after ++ middle :: last }
termination_by as.length
decreasing_by
  all_goals
    have hlength := congrArg List.length _split
    simp only [List.length_drop, List.length_cons, List.length_take] at hlength ⊢
    omega

theorem join_cut (key : α → κ) (k : κ) (as : List α) : (cut key k as).join = as := by
  fun_induction cut key k as with
  | case1 as hsplit =>
    have hlength := congrArg List.length hsplit
    simp only [List.length_drop, List.length_nil] at hlength
    have has : as.length = 0 := by omega
    simp [Cut.join, List.length_eq_zero_iff.mp has]
  | case2 as middle last hsplit =>
    simp [Cut.join, ← hsplit]
  | case3 as middle last hsplit _ c ih =>
    simp only [Cut.join, List.append_assoc, List.cons_append] at ih ⊢
    rw [ih, ← hsplit, List.take_append_drop]
  | case4 as middle last hsplit _ c ih =>
    simp only [Cut.join, ← List.append_assoc] at ih ⊢
    rw [ih, ← hsplit, List.take_append_drop]

theorem compare_of_mem_found? {k : κ} {as : List α} {a : α} (h : (cut key k as).found? = some a) :
    compare (key a) k = .eq := by
  fun_induction cut key k as with
  | case1 => simp at h
  | case2 as middle last hsplit heq =>
    obtain rfl := Option.some.inj h
    exact heq
  | case3 as middle last hsplit _ c ih => exact ih h
  | case4 as middle last hsplit _ c ih => exact ih h

/-- A list in ascending order is in ascending order on both sides of its middle. -/
theorem pairwise_halves {as last : List α} {middle : α} {n : Nat}
    (hsplit : as.drop n = middle :: last)
    (h : as.Pairwise fun a b => compare (key a) (key b) = .lt) :
    ((as.take n).Pairwise fun a b => compare (key a) (key b) = .lt) ∧
      ((middle :: last).Pairwise fun a b => compare (key a) (key b) = .lt) ∧
        ∀ a ∈ as.take n, compare (key a) (key middle) = .lt := by
  rw [← List.take_append_drop n as, hsplit, List.pairwise_append] at h
  exact ⟨h.1, h.2.1, fun a ha => h.2.2 a ha middle List.mem_cons_self⟩

/-- In a list in ascending order the keys before the place are smaller, those after it larger. -/
theorem cut_ordered [Std.TransOrd κ] {as : List α}
    (h : as.Pairwise fun a b => compare (key a) (key b) = .lt) (k : κ) :
    (∀ a ∈ (cut key k as).before, compare (key a) k = .lt) ∧
      ∀ a ∈ (cut key k as).after, compare (key a) k = .gt := by
  fun_induction cut key k as with
  | case1 => simp
  | case2 as middle last hsplit heq =>
    obtain ⟨_, hlast, hfirst⟩ := pairwise_halves hsplit h
    refine ⟨fun a ha => ?_, fun a ha => ?_⟩
    · rw [← Std.TransCmp.congr_right heq]
      exact hfirst a ha
    · rw [Std.OrientedCmp.gt_iff_lt, ← Std.TransCmp.congr_left heq]
      exact (List.pairwise_cons.mp hlast).1 a ha
  | case3 as middle last hsplit hlt c ih =>
    obtain ⟨_, hlast, hfirst⟩ := pairwise_halves hsplit h
    obtain ⟨hbefore, hafter⟩ := ih (List.pairwise_cons.mp hlast).2
    refine ⟨fun a ha => ?_, hafter⟩
    rcases List.mem_append.mp ha with ha | ha
    · exact Std.TransCmp.lt_trans (hfirst a ha) hlt
    · rcases List.mem_cons.mp ha with rfl | ha
      · exact hlt
      · exact hbefore a ha
  | case4 as middle last hsplit hgt c ih =>
    obtain ⟨hfirst, hlast, _⟩ := pairwise_halves hsplit h
    obtain ⟨hbefore, hafter⟩ := ih hfirst
    refine ⟨hbefore, fun a ha => ?_⟩
    rcases List.mem_append.mp ha with ha | ha
    · exact hafter a ha
    · rcases List.mem_cons.mp ha with rfl | ha
      · exact hgt
      · exact Std.TransCmp.gt_trans
          (Std.OrientedCmp.gt_iff_lt.mpr ((List.pairwise_cons.mp hlast).1 a ha)) hgt

/-- A list stays in ascending order when an entry is put in the place of its key. -/
theorem insert_ascending [Std.TransOrd κ] {as : List α}
    (h : as.Pairwise fun a b => compare (key a) (key b) = .lt) (a : α) :
    ((cut key (key a) as).before ++ a :: (cut key (key a) as).after).Pairwise
      fun a b => compare (key a) (key b) = .lt := by
  obtain ⟨hbefore, hafter⟩ := cut_ordered h (key a)
  rw [← join_cut key (key a) as, Cut.join, List.pairwise_append] at h
  obtain ⟨hfirst, hrest, hacross⟩ := h
  refine List.pairwise_append.mpr ⟨hfirst, List.pairwise_cons.mpr ⟨fun b hb => ?_, ?_⟩, ?_⟩
  · exact Std.OrientedCmp.gt_iff_lt.mp (hafter b hb)
  · exact hrest.sublist (List.sublist_append_right _ _)
  · intro b hb c hc
    rcases List.mem_cons.mp hc with rfl | hc
    · exact hbefore b hb
    · exact hacross b hb c (List.mem_append_right _ hc)

/-! ### Operations -/

/-- The entry with a key. -/
def find? (entries : Ascending key) (k : κ) : Option α :=
  (cut key k entries.toList).found?

/-- Puts an entry in its place, instead of one with the same key. -/
def insert [Std.TransOrd κ] (entries : Ascending key) (a : α) : Ascending key where
  toList := (cut key (key a) entries.toList).before ++ a :: (cut key (key a) entries.toList).after
  ascending := insert_ascending entries.ascending a

/-- Takes out the entry with a key. -/
def erase (entries : Ascending key) (k : κ) : Ascending key where
  toList := (cut key k entries.toList).before ++ (cut key k entries.toList).after
  ascending := by
    have hsublist : ((cut key k entries.toList).before ++ (cut key k entries.toList).after).Sublist
        (cut key k entries.toList).join :=
      (List.sublist_append_right _ _).append_left _
    rw [join_cut] at hsublist
    exact entries.ascending.sublist hsublist

/-- The entries of a list, the last one with a key winning. -/
def ofList [Std.TransOrd κ] (as : List α) : Ascending key :=
  as.foldl insert empty

theorem mem_cut_iff (k : κ) (as : List α) {a : α} :
    a ∈ as ↔ a ∈ (cut key k as).before ∨ (cut key k as).found? = some a ∨
      a ∈ (cut key k as).after := by
  conv => lhs; rw [← join_cut key k as]
  simp [Cut.join]

theorem mem_of_find? {entries : Ascending key} {k : κ} {a : α}
    (h : entries.find? k = some a) : a ∈ entries.toList :=
  (mem_cut_iff k _).mpr (.inr (.inl h))

theorem mem_insert [Std.TransOrd κ] {entries : Ascending key} {a b : α}
    (h : b ∈ (entries.insert a).toList) : b = a ∨ b ∈ entries.toList := by
  rcases List.mem_append.mp h with h | h
  · exact .inr ((mem_cut_iff _ _).mpr (.inl h))
  · exact (List.mem_cons.mp h).imp_right fun h => (mem_cut_iff _ _).mpr (.inr (.inr h))

theorem mem_of_mem_erase {entries : Ascending key} {k : κ} {a : α}
    (h : a ∈ (entries.erase k).toList) : a ∈ entries.toList :=
  (mem_cut_iff k _).mpr ((List.mem_append.mp h).imp_right .inr)

end Ascending

end PackagePlanner
