import PackagePlanner.Proofs.Catalog.Newest
import PackagePlanner.Proofs.Constraint.Overlap

/-!
What is looked up in a package.

* `Package.IsNewest` and `Package.IsOldest`: the newest and the oldest of the releases that pass a
  test, said of the releases as a set.
* `Package.find?_eq_some_iff`, `newest?_eq_some_iff`, `oldest?_eq_some_iff`: the first release that
  a search meets is the newest or the oldest one, since the releases are in ascending order.
  `closest?_eq_some_iff`: what is nearest to a constraint.
* `Package.answers`: all that can be asked of a package.
-/

namespace PackagePlanner

/-- A version lies behind the accepted interval if it is newer than the upper bound. -/
lemma Constraint.position_eq_gt_iff {c : Constraint} {v : Version} :
    c.position v = .gt ↔ ∃ u ∈ c.upper?, u < v := by
  have hlower : c.lower?.any (fun l => compare v l == .lt) = true ↔ ∃ l ∈ c.lower?, v < l := by
    cases c.lower? <;> simp [compare_lt_iff_lt]
  have hupper : c.upper?.any (fun u => compare v u == .gt) = true ↔ ∃ u ∈ c.upper?, u < v := by
    cases c.upper? <;> simp [compare_gt_iff_gt]
  rw [← hupper, position]
  split
  · rename_i hbefore
    obtain ⟨l, hl, hvl⟩ := hlower.mp hbefore
    simp only [reduceCtorEq, false_iff, hupper]
    rintro ⟨u, hu, huv⟩
    exact absurd (le_of_bounds hl hu) (huv.trans hvl).not_ge
  · split <;> simp_all

namespace Package

variable {p : Package} {c : Constraint} {v : Version} {r : Release} {test : Release → Prop}

/-! ### Newest and oldest releases -/

/-- The newest release of a package that passes a test. -/
structure IsNewest (p : Package) (test : Release → Prop) (r : Release) : Prop where
  mem : r ∈ p.releases.toList
  passes : test r
  newest : ∀ q ∈ p.releases.toList, test q → q.version ≤ r.version

/-- The oldest release of a package that passes a test. -/
structure IsOldest (p : Package) (test : Release → Prop) (r : Release) : Prop where
  mem : r ∈ p.releases.toList
  passes : test r
  oldest : ∀ q ∈ p.releases.toList, test q → r.version ≤ q.version

/-- The first release that passes a test, from the newest one on, is the newest that does. -/
lemma find?_newestFirst_eq_some_iff {check : Release → Bool}
    (h : ∀ q, check q = true ↔ test q) :
    p.newestFirst.find? check = some r ↔ p.IsNewest test r := by
  rw [find?_eq_some_iff_largest p.pairwise_newestFirst]
  simp only [newestFirst, List.mem_reverse, h]
  constructor
  · rintro ⟨hmem, hpasses, hnewest⟩
    exact ⟨hmem, hpasses, hnewest⟩
  · rintro ⟨hmem, hpasses, hnewest⟩
    exact ⟨hmem, hpasses, hnewest⟩

/-- The first release that passes a test, from the oldest one on, is the oldest that does. -/
lemma find?_releases_eq_some_iff {check : Release → Bool} (h : ∀ q, check q = true ↔ test q) :
    p.releases.toList.find? check = some r ↔ p.IsOldest test r := by
  have hascending : p.releases.toList.Pairwise fun r q =>
      OrderDual.toDual q.version < OrderDual.toDual r.version := p.releases.ascending
  rw [find?_eq_some_iff_largest hascending]
  simp only [h, OrderDual.toDual_le_toDual]
  constructor
  · rintro ⟨hmem, hpasses, holdest⟩
    exact ⟨hmem, hpasses, holdest⟩
  · rintro ⟨hmem, hpasses, holdest⟩
    exact ⟨hmem, hpasses, holdest⟩

lemma release?_eq_some_iff : p.release? v = some r ↔ r ∈ p.releases.toList ∧ r.version = v :=
  Ascending.find?_eq_some_iff

lemma newest?_eq_some_iff : p.newest? = some r ↔ p.IsNewest (fun _ => True) r := by
  have hfirst : p.newest? = p.newestFirst.find? fun _ => true := by
    rw [newest?, newestFirst, ← List.head?_reverse]
    cases p.releases.toList.reverse <;> rfl
  rw [hfirst]
  exact find?_newestFirst_eq_some_iff fun _ => iff_of_true rfl trivial

lemma oldest?_eq_some_iff : p.oldest? = some r ↔ p.IsOldest (fun _ => True) r := by
  have hfirst : p.oldest? = p.releases.toList.find? fun _ => true := by
    rw [oldest?]
    cases p.releases.toList <;> rfl
  rw [hfirst]
  exact find?_releases_eq_some_iff fun _ => iff_of_true rfl trivial

lemma find?_eq_some_iff :
    p.find? c = some r ↔ p.IsNewest (fun q => c.admits q.version = true) r :=
  find?_newestFirst_eq_some_iff fun _ => Iff.rfl

/-! ### Lists of releases -/

lemma mem_matching_iff :
    r ∈ p.matching c ↔ r ∈ p.releases.toList ∧ c.admits r.version = true := by
  rw [matching, List.mem_filter, newestFirst, List.mem_reverse]

lemma pairwise_matching (p : Package) (c : Constraint) :
    (p.matching c).Pairwise fun r q => q.version < r.version :=
  p.pairwise_newestFirst.filter _

/-! ### The closest release -/

lemma find?_eq_none_iff :
    p.find? c = none ↔ ∀ q ∈ p.releases.toList, ¬ c.admits q.version = true := by
  rw [find?, List.find?_eq_none]
  simp only [newestFirst, List.mem_reverse]

/-- If no release is accepted the closest one is the oldest behind the accepted interval, or else
the newest of all. -/
lemma closest?_eq_some_iff :
    p.closest? c = some r ↔ p.IsNewest (fun q => c.admits q.version = true) r ∨
      (∀ q ∈ p.releases.toList, ¬ c.admits q.version = true) ∧
        (p.IsOldest (fun q => ∃ u ∈ c.upper?, u < q.version) r ∨
          (∀ q ∈ p.releases.toList, ¬ ∃ u ∈ c.upper?, u < q.version) ∧
            p.IsNewest (fun _ => True) r) := by
  have hbehind (q : Release) :
      (c.position q.version == .gt) = true ↔ ∃ u ∈ c.upper?, u < q.version := by
    rw [beq_iff_eq, Constraint.position_eq_gt_iff]
  have hnone : p.releases.toList.find? (fun q => c.position q.version == .gt) = none ↔
      ∀ q ∈ p.releases.toList, ¬ ∃ u ∈ c.upper?, u < q.version := by
    rw [List.find?_eq_none]
    simp only [hbehind]
  rw [closest?, Option.or_assoc, Option.or_eq_some_iff, Option.or_eq_some_iff,
    find?_eq_some_iff, find?_eq_none_iff, find?_releases_eq_some_iff hbehind, hnone,
    newest?_eq_some_iff]

/-! ### All that can be asked -/

/-- What is asked of a package is answered by its releases as a set. -/
structure Answers (p : Package) : Prop where
  /-- The releases are in strictly ascending order. -/
  ascending : p.releases.toList.Pairwise fun r q => r.version < q.version
  /-- A version is found if it is there. -/
  release? : ∀ v r, p.release? v = some r ↔ r ∈ p.releases.toList ∧ r.version = v
  newest? : ∀ r, p.newest? = some r ↔ p.IsNewest (fun _ => True) r
  oldest? : ∀ r, p.oldest? = some r ↔ p.IsOldest (fun _ => True) r
  /-- The newest accepted release is found. -/
  find? : ∀ c r, p.find? c = some r ↔ p.IsNewest (fun q => c.admits q.version = true) r
  /-- The accepted releases are listed, newest first. -/
  matching : ∀ c, (p.matching c).Pairwise (fun r q => q.version < r.version) ∧
    ∀ r, r ∈ p.matching c ↔ r ∈ p.releases.toList ∧ c.admits r.version = true
  /-- The strictly newer releases are listed, newest first. -/
  newerThan : ∀ v, (p.newerThan v).Pairwise (fun r q => q.version < r.version) ∧
    ∀ r, r ∈ p.newerThan v ↔ r ∈ p.releases.toList ∧ v < r.version
  /-- The closest release is the newest accepted one. Without any, it is the oldest release behind
  the accepted interval, and without any of these it is the newest of all. -/
  closest? : ∀ c r, p.closest? c = some r ↔
    p.IsNewest (fun q => c.admits q.version = true) r ∨
      (∀ q ∈ p.releases.toList, ¬ c.admits q.version = true) ∧
        (p.IsOldest (fun q => ∃ u ∈ c.upper?, u < q.version) r ∨
          (∀ q ∈ p.releases.toList, ¬ ∃ u ∈ c.upper?, u < q.version) ∧
            p.IsNewest (fun _ => True) r)

lemma answers (p : Package) : p.Answers where
  ascending := p.releases.ascending
  release? _ _ := release?_eq_some_iff
  newest? _ := newest?_eq_some_iff
  oldest? _ := oldest?_eq_some_iff
  find? _ _ := find?_eq_some_iff
  matching c := ⟨p.pairwise_matching c, fun _ => mem_matching_iff⟩
  newerThan v := ⟨p.pairwise_newerThan v, fun _ => mem_newerThan_iff⟩
  closest? _ _ := closest?_eq_some_iff

end Package

end PackagePlanner
