import Mathlib.Tactic
import PackagePlanner.Collection.Keyed
import PackagePlanner.Collection.Ascending

/-!
What a list of entries holds after a change, read off its members: `mem_insert_iff` and
`mem_erase_iff`, for both kinds of lists.

* `Keyed.eq_of_mem` and `Ascending.eq_of_mem`: the key determines the entry, so that
  `find?_eq_some_iff` says which entry is found.
* `Keyed.mem_ofList_iff`: where a list gives the same entry for the same key, the entries made from
  it are its members.
* `ofList_toList`, for both: the entries inserted one after the other are the same again.
-/

namespace PackagePlanner

/-- Of entries with distinct keys, none before another one has its key. -/
lemma forall_ne_of_nodup_map {α κ : Type} {key : α → κ} {before after : List α} {a : α}
    (h : ((before ++ a :: after).map key).Nodup) : ∀ b ∈ before, key b ≠ key a := by
  rw [List.map_append, List.map_cons] at h
  exact fun b hb => (List.nodup_append.mp h).2.2 _ (List.mem_map_of_mem hb) _ List.mem_cons_self

/-- Of equal elements only the first is kept. -/
lemma nodup_eraseDups {α : Type} [DecidableEq α] (as : List α) : as.eraseDups.Nodup := by
  induction hn : as.length using Nat.strong_induction_on generalizing as with
  | _ n ih =>
      cases as with
      | nil => simp
      | cons a rest =>
          have hlt : (rest.filter fun b => !b == a).length < n :=
            hn ▸ Nat.lt_succ_of_le (List.length_filter_le _ rest)
          rw [List.eraseDups_cons]
          exact List.nodup_cons.mpr ⟨by simp [List.mem_eraseDups], ih _ hlt _ rfl⟩

/-- Equal elements are equal before and after some others are taken out. -/
lemma eraseDups_filter {α : Type} [DecidableEq α] (test : α → Bool) (as : List α) :
    (as.filter test).eraseDups = as.eraseDups.filter test := by
  induction hn : as.length using Nat.strong_induction_on generalizing as with
  | _ n ih =>
      cases as with
      | nil => simp
      | cons a rest =>
          have hlt : (rest.filter fun b => !b == a).length < n :=
            hn ▸ Nat.lt_succ_of_le (List.length_filter_le _ rest)
          rw [List.eraseDups_cons]
          by_cases ha : test a = true
          · rw [List.filter_cons_of_pos ha, List.filter_cons_of_pos ha, List.eraseDups_cons,
              ← ih _ hlt _ rfl, List.filter_comm]
          · have hsame : rest.filter test = (rest.filter fun b => !b == a).filter test := by
              rw [List.filter_filter]
              refine List.filter_congr fun b _ => ?_
              by_cases hb : b = a <;> simp_all
            rw [List.filter_cons_of_neg ha, List.filter_cons_of_neg ha, hsame, ih _ hlt _ rfl]

/-- An element at the end is kept if it is new. -/
lemma eraseDups_concat {α : Type} [DecidableEq α] (as : List α) (a : α) :
    (as ++ [a]).eraseDups = if a ∈ as then as.eraseDups else as.eraseDups ++ [a] := by
  rw [List.eraseDups_append]
  split <;> simp_all [List.removeAll, List.eraseDups_cons]

/-! ### Entries in order of insertion -/

namespace Keyed

variable {α κ : Type} {key : α → κ}

/-- The key determines the entry. -/
lemma eq_of_mem {entries : Keyed key} {a b : α} (ha : a ∈ entries.toList)
    (hb : b ∈ entries.toList) (h : key a = key b) : a = b :=
  List.inj_on_of_nodup_map entries.nodup ha hb h

variable [DecidableEq κ]

lemma contains_iff {entries : Keyed key} {k : κ} :
    entries.contains k = true ↔ ∃ a ∈ entries.toList, key a = k := by
  simp [contains]

lemma contains_of_mem {entries : Keyed key} {a : α} (h : a ∈ entries.toList) :
    entries.contains (key a) = true :=
  contains_iff.mpr ⟨a, h, rfl⟩

lemma find?_eq_some_iff {entries : Keyed key} {k : κ} {a : α} :
    entries.find? k = some a ↔ a ∈ entries.toList ∧ key a = k := by
  refine ⟨fun h => ⟨mem_of_find? h, key_of_find? h⟩, ?_⟩
  rintro ⟨ha, rfl⟩
  cases h : entries.find? (key a) with
  | none =>
      have hnone : ∀ b ∈ entries.toList, ¬ key b = key a := by
        simpa [find?, List.find?_eq_none] using h
      exact absurd rfl (hnone a ha)
  | some b => rw [eq_of_mem (mem_of_find? h) ha (key_of_find? h)]

lemma mem_insertInto_iff {a b : α} {as : List α} (h : (as.map key).Nodup) :
    b ∈ insertInto key a as ↔ b = a ∨ (b ∈ as ∧ key b ≠ key a) := by
  induction as with
  | nil => simp [insertInto]
  | cons c rest ih =>
      rw [List.map_cons, List.nodup_cons] at h
      obtain ⟨hc, hrest⟩ := h
      have hc' : ∀ d ∈ rest, key d ≠ key c := fun d hd e => hc (e ▸ List.mem_map_of_mem hd)
      by_cases hk : key c = key a
      · simp only [insertInto, if_pos hk, List.mem_cons]
        refine ⟨?_, ?_⟩
        · rintro (rfl | hb)
          · exact .inl rfl
          · exact .inr ⟨.inr hb, hk ▸ hc' b hb⟩
        · rintro (rfl | ⟨rfl | hb, hne⟩)
          · exact .inl rfl
          · exact absurd hk hne
          · exact .inr hb
      · simp only [insertInto, if_neg hk, List.mem_cons, ih hrest]
        refine ⟨?_, ?_⟩
        · rintro (rfl | rfl | ⟨hb, hne⟩)
          · exact .inr ⟨.inl rfl, hk⟩
          · exact .inl rfl
          · exact .inr ⟨.inr hb, hne⟩
        · rintro (rfl | ⟨rfl | hb, hne⟩)
          · exact .inr (.inl rfl)
          · exact .inl rfl
          · exact .inr (.inr ⟨hb, hne⟩)

lemma mem_insert_iff {entries : Keyed key} {a b : α} :
    b ∈ (entries.insert a).toList ↔ b = a ∨ (b ∈ entries.toList ∧ key b ≠ key a) :=
  mem_insertInto_iff entries.nodup

lemma mem_erase_iff {entries : Keyed key} {k : κ} {a : α} :
    a ∈ (entries.erase k).toList ↔ a ∈ entries.toList ∧ key a ≠ k := by
  simp [erase]

/-- An inserted entry is found under its key, and the others as before. -/
lemma find?_insert (entries : Keyed key) (a : α) (k : κ) :
    (entries.insert a).find? k = if key a = k then some a else entries.find? k := by
  ext b
  rw [find?_eq_some_iff, mem_insert_iff]
  split
  · rename_i hk
    rw [Option.some.injEq]
    constructor
    · rintro ⟨rfl | ⟨_, hne⟩, hb⟩
      · rfl
      · exact absurd (hb.trans hk.symm) hne
    · rintro rfl
      exact ⟨.inl rfl, hk⟩
  · rename_i hk
    rw [find?_eq_some_iff]
    constructor
    · rintro ⟨rfl | ⟨hb, _⟩, hbk⟩
      · exact absurd hbk hk
      · exact ⟨hb, hbk⟩
    · rintro ⟨hb, rfl⟩
      exact ⟨.inr ⟨hb, Ne.symm hk⟩, rfl⟩

/-- An erased key is not found, and the others as before. -/
lemma find?_erase (entries : Keyed key) (k l : κ) :
    (entries.erase k).find? l = if k = l then none else entries.find? l := by
  ext b
  rw [find?_eq_some_iff, mem_erase_iff]
  split
  · rename_i hk
    simp only [reduceCtorEq, iff_false, not_and]
    exact fun hb hbl => hb.2 (hbl.trans hk.symm)
  · rename_i hk
    rw [find?_eq_some_iff]
    exact and_congr_left fun hb => and_iff_left fun hbk => hk (hbk.symm.trans hb)

/-- Inserting one entry after the other, where the same key comes with the same entry. -/
lemma mem_foldl_insert_iff {as : List α} {entries : Keyed key} {a : α}
    (h : ∀ b ∈ as, ∀ c ∈ entries.toList ++ as, key b = key c → b = c) :
    a ∈ (as.foldl insert entries).toList ↔ a ∈ entries.toList ∨ a ∈ as := by
  induction as generalizing entries with
  | nil => simp
  | cons b rest ih =>
      have hb : ∀ c ∈ (entries.insert b).toList ++ rest, c ∈ entries.toList ++ b :: rest := by
        intro c hc
        rcases List.mem_append.mp hc with hc | hc
        · rcases mem_insert hc with rfl | hc <;> simp [*]
        · simp [hc]
      rw [List.foldl_cons, ih fun c hc d hd => h c (List.mem_cons_of_mem b hc) d (hb d hd),
        mem_insert_iff, List.mem_cons]
      refine ⟨?_, ?_⟩
      · rintro ((rfl | ⟨ha, _⟩) | ha)
        · exact .inr (.inl rfl)
        · exact .inl ha
        · exact .inr (.inr ha)
      · rintro (ha | rfl | ha)
        · by_cases hk : key a = key b
          · exact .inl (.inl (h b List.mem_cons_self a (by simp [ha]) hk.symm).symm)
          · exact .inl (.inr ⟨ha, hk⟩)
        · exact .inl (.inl rfl)
        · exact .inr ha

lemma mem_ofList_iff {as : List α} {a : α} (h : ∀ b ∈ as, ∀ c ∈ as, key b = key c → b = c) :
    a ∈ (ofList as : Keyed key).toList ↔ a ∈ as := by
  rw [ofList, mem_foldl_insert_iff fun b hb c hc => h b hb c (by simpa [empty] using hc)]
  simp [empty]

/-! ### In the order of a list -/

lemma insertInto_of_forall_ne {a : α} {as : List α} (h : ∀ b ∈ as, key b ≠ key a)
    (rest : List α) : insertInto key a (as ++ rest) = as ++ insertInto key a rest := by
  induction as with
  | nil => rfl
  | cons b as ih =>
      obtain ⟨hb, has⟩ := List.forall_mem_cons.mp h
      rw [List.cons_append, insertInto, if_neg hb, ih has, List.cons_append]

/-- An entry with a new key comes last. -/
lemma toList_insert_of_forall_ne {entries : Keyed key} {a : α}
    (h : ∀ b ∈ entries.toList, key b ≠ key a) :
    (entries.insert a).toList = entries.toList ++ [a] := by
  have hinto := insertInto_of_forall_ne h []
  rwa [List.append_nil] at hinto

/-- An entry takes the place of the last one, if that has its key. -/
lemma toList_insert_last {entries : Keyed key} {before : List α} {a b : α}
    (h : entries.toList = before ++ [b]) (hkey : key b = key a) :
    (entries.insert a).toList = before ++ [a] := by
  have hbefore : ∀ c ∈ before, key c ≠ key b := forall_ne_of_nodup_map (h ▸ entries.nodup)
  rw [hkey] at hbefore
  have hinto := insertInto_of_forall_ne hbefore [b]
  rw [insertInto, if_pos hkey, ← h] at hinto
  exact hinto

lemma toList_foldl_insert {as : List α} {entries : Keyed key}
    (h : ((entries.toList ++ as).map key).Nodup) :
    (as.foldl insert entries).toList = entries.toList ++ as := by
  induction as generalizing entries with
  | nil => simp
  | cons a as ih =>
      have hinsert := toList_insert_of_forall_ne (forall_ne_of_nodup_map h)
      rw [List.foldl_cons, ih (by simpa [hinsert] using h), hinsert, List.append_assoc,
        List.singleton_append]

/-- The entries, inserted in their order, are the same again. -/
theorem ofList_toList (entries : Keyed key) : ofList entries.toList = entries :=
  ext (toList_foldl_insert entries.nodup)

end Keyed

/-! ### Entries in ascending order -/

namespace Ascending

variable {α κ : Type} [Ord κ] [Std.LawfulEqOrd κ] {key : α → κ}

lemma ne_of_compare_eq_lt {k l : κ} (h : compare k l = .lt) : l ≠ k := by
  rintro rfl
  have hself : compare l l = .eq := Std.LawfulEqCmp.compare_eq_iff_eq.mpr rfl
  exact absurd (h.symm.trans hself) (by decide)

/-- No two entries have the same key. -/
lemma nodup (entries : Ascending key) : (entries.toList.map key).Nodup :=
  List.pairwise_map.mpr (entries.ascending.imp fun h => (ne_of_compare_eq_lt h).symm)

/-- The key determines the entry. -/
lemma eq_of_mem {entries : Ascending key} {a b : α} (ha : a ∈ entries.toList)
    (hb : b ∈ entries.toList) (h : key a = key b) : a = b :=
  List.inj_on_of_nodup_map entries.nodup ha hb h

variable [Std.TransOrd κ]

/-- Besides the entry with a key there are those before and after its place. -/
lemma mem_beside_iff {entries : Ascending key} {k : κ} {a : α} :
    a ∈ (cut key k entries.toList).before ∨ a ∈ (cut key k entries.toList).after ↔
      a ∈ entries.toList ∧ key a ≠ k := by
  obtain ⟨hbefore, hafter⟩ := cut_ordered entries.ascending k
  constructor
  · rintro (h | h)
    · exact ⟨(mem_cut_iff k _).mpr (.inl h), (ne_of_compare_eq_lt (hbefore a h)).symm⟩
    · exact ⟨(mem_cut_iff k _).mpr (.inr (.inr h)),
        ne_of_compare_eq_lt (Std.OrientedCmp.gt_iff_lt.mp (hafter a h))⟩
  · rintro ⟨h, hne⟩
    rcases (mem_cut_iff k _).mp h with h | h | h
    · exact .inl h
    · exact absurd (Std.LawfulEqCmp.compare_eq_iff_eq.mp (compare_of_mem_found? h)) hne
    · exact .inr h

lemma find?_eq_some_iff {entries : Ascending key} {k : κ} {a : α} :
    entries.find? k = some a ↔ a ∈ entries.toList ∧ key a = k := by
  constructor
  · intro h
    exact ⟨mem_of_find? h, Std.LawfulEqCmp.compare_eq_iff_eq.mp (compare_of_mem_found? h)⟩
  · rintro ⟨h, hkey⟩
    rcases (mem_cut_iff k _).mp h with h | h | h
    · exact absurd hkey (mem_beside_iff.mp (.inl h)).2
    · exact h
    · exact absurd hkey (mem_beside_iff.mp (.inr h)).2

lemma mem_insert_iff {entries : Ascending key} {a b : α} :
    b ∈ (entries.insert a).toList ↔ b = a ∨ (b ∈ entries.toList ∧ key b ≠ key a) := by
  rw [← mem_beside_iff, insert, List.mem_append, List.mem_cons, or_left_comm]

lemma mem_erase_iff {entries : Ascending key} {k : κ} {a : α} :
    a ∈ (entries.erase k).toList ↔ a ∈ entries.toList ∧ key a ≠ k := by
  rw [← mem_beside_iff, erase, List.mem_append]

omit [Std.LawfulEqOrd κ]

/-- An entry with a larger key comes last. -/
lemma toList_insert_of_forall_lt {entries : Ascending key} {a : α}
    (h : ∀ b ∈ entries.toList, compare (key b) (key a) = .lt) :
    (entries.insert a).toList = entries.toList ++ [a] := by
  have hjoin := join_cut key (key a) entries.toList
  have hfound : (cut key (key a) entries.toList).found? = none := by
    rw [Option.eq_none_iff_forall_ne_some]
    intro b hb
    have hlt := h b ((mem_cut_iff _ _).mpr (.inr (.inl hb)))
    rw [compare_of_mem_found? hb] at hlt
    simp at hlt
  have hafter : (cut key (key a) entries.toList).after = [] := by
    rw [List.eq_nil_iff_forall_not_mem]
    intro b hb
    have hlt := h b ((mem_cut_iff _ _).mpr (.inr (.inr hb)))
    rw [(cut_ordered entries.ascending _).2 b hb] at hlt
    simp at hlt
  have hbefore : (cut key (key a) entries.toList).before = entries.toList := by
    simpa [Cut.join, hfound, hafter] using hjoin
  simp [insert, hbefore, hafter]

lemma toList_foldl_insert {as : List α} {entries : Ascending key}
    (h : (entries.toList ++ as).Pairwise fun a b => compare (key a) (key b) = .lt) :
    (as.foldl insert entries).toList = entries.toList ++ as := by
  induction as generalizing entries with
  | nil => simp
  | cons a as ih =>
      have hinsert : (entries.insert a).toList = entries.toList ++ [a] :=
        toList_insert_of_forall_lt fun b hb =>
          (List.pairwise_append.mp h).2.2 b hb a List.mem_cons_self
      rw [List.foldl_cons, ih (by simpa [hinsert] using h), hinsert, List.append_assoc,
        List.singleton_append]

/-- The entries, inserted in their order, are the same again. -/
theorem ofList_toList (entries : Ascending key) : ofList entries.toList = entries :=
  ext (toList_foldl_insert entries.ascending)

end Ascending

end PackagePlanner
