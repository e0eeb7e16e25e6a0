import PackagePlanner.Proofs.Catalog
import PackagePlanner.Proofs.Version

/-!
The newest releases of a package.

* `Package.mem_newerThan_iff`: the releases after a version are those that are newer.
* `Package.find?_newerThan_eq_some_iff`: the first of them that is accepted is the newest one.
* `Catalog.IsNewest`: the newest release of a package in a catalog. A package with a release has one
  (`exists_isNewest`), which is the one that is looked up (`isNewest_of_newest?`).
-/

namespace PackagePlanner

/-! ### Descending lists -/

/-- If all that stands before an element that passes a test passes it too, those that pass it come
first. -/
lemma takeWhile_eq_filter {α : Type} {r : α → α → Prop} {test : α → Bool} {as : List α}
    (h : as.Pairwise r) (htest : ∀ a b, r a b → test b = true → test a = true) :
    as.takeWhile test = as.filter test := by
  induction as with
  | nil => rfl
  | cons a rest ih =>
      obtain ⟨ha, hrest⟩ := List.pairwise_cons.mp h
      cases hta : test a with
      | true => simp [hta, ih hrest]
      | false =>
          have hnone : rest.filter test = [] := by
            rw [List.filter_eq_nil_iff]
            intro b hb htb
            rw [htest a b (ha b hb) htb] at hta
            simp at hta
          simp [hta, hnone]

/-- In a descending list the first element that passes a test is the largest one that does. -/
lemma find?_eq_some_iff_largest {α κ : Type} [LinearOrder κ] {key : α → κ} {test : α → Bool}
    {as : List α} {a : α} (h : as.Pairwise fun a b => key b < key a) :
    as.find? test = some a ↔
      a ∈ as ∧ test a = true ∧ ∀ b ∈ as, test b = true → key b ≤ key a := by
  induction as with
  | nil => simp
  | cons b rest ih =>
      obtain ⟨hb, hrest⟩ := List.pairwise_cons.mp h
      rw [List.find?_cons]
      cases htb : test b with
      | true =>
          constructor
          · rintro ⟨⟩
            refine ⟨List.mem_cons_self, htb, fun c hc _ => ?_⟩
            rcases List.mem_cons.mp hc with rfl | hc
            · exact le_rfl
            · exact (hb c hc).le
          · rintro ⟨ha, _, hmax⟩
            rcases List.mem_cons.mp ha with rfl | ha
            · rfl
            · exact absurd (hmax b List.mem_cons_self htb) (not_le.mpr (hb a ha))
      | false =>
          rw [ih hrest]
          constructor
          · rintro ⟨ha, hta, hmax⟩
            refine ⟨List.mem_cons_of_mem b ha, hta, fun c hc htc => ?_⟩
            rcases List.mem_cons.mp hc with rfl | hc
            · simp [htb] at htc
            · exact hmax c hc htc
          · rintro ⟨ha, hta, hmax⟩
            rcases List.mem_cons.mp ha with rfl | ha
            · simp [htb] at hta
            · exact ⟨ha, hta, fun c hc => hmax c (List.mem_cons_of_mem b hc)⟩

/-! ### Packages -/

namespace Package

variable {p : Package} {v : Version} {r : Release}

lemma pairwise_newestFirst (p : Package) :
    p.newestFirst.Pairwise fun r q => q.version < r.version :=
  List.pairwise_reverse.mpr p.releases.ascending

lemma newerThan_eq_filter (p : Package) (v : Version) :
    p.newerThan v = p.newestFirst.filter fun r => compare r.version v == .gt := by
  refine takeWhile_eq_filter p.pairwise_newestFirst fun r q hlt hq => ?_
  rw [beq_iff_eq, compare_gt_iff_gt] at hq ⊢
  exact hq.trans hlt

/-- The releases after a version are the newer ones. -/
lemma mem_newerThan_iff : r ∈ p.newerThan v ↔ r ∈ p.releases.toList ∧ v < r.version := by
  rw [newerThan_eq_filter, List.mem_filter, newestFirst, List.mem_reverse, beq_iff_eq,
    compare_gt_iff_gt]

lemma pairwise_newerThan (p : Package) (v : Version) :
    (p.newerThan v).Pairwise fun r q => q.version < r.version := by
  rw [newerThan_eq_filter]
  exact p.pairwise_newestFirst.filter _

/-- The first release after a version that passes a test is the newest one that does. -/
lemma find?_newerThan_eq_some_iff {test : Release → Bool} :
    (p.newerThan v).find? test = some r ↔
      (r ∈ p.releases.toList ∧ v < r.version) ∧ test r = true ∧
        ∀ q ∈ p.releases.toList, v < q.version → test q = true → q.version ≤ r.version := by
  rw [find?_eq_some_iff_largest (p.pairwise_newerThan v)]
  simp only [mem_newerThan_iff, and_imp]

/-- No release is newer than the newest one. -/
lemma newest?_eq_some {newest : Release} (h : p.newest? = some newest) :
    newest ∈ p.releases.toList ∧ ∀ r ∈ p.releases.toList, r.version ≤ newest.version := by
  refine ⟨List.mem_of_getLast? h, fun r hr => ?_⟩
  have hfirst : p.newestFirst.head? = some newest := by
    rw [newestFirst, List.head?_reverse]
    exact h
  obtain ⟨older, holder⟩ := List.head?_eq_some_iff.mp hfirst
  have hdescending := p.pairwise_newestFirst
  rw [holder, List.pairwise_cons] at hdescending
  have hmem : r ∈ newest :: older := by
    rw [← holder, newestFirst]
    exact List.mem_reverse.mpr hr
  rcases List.mem_cons.mp hmem with rfl | hmem
  · exact le_rfl
  · exact (hdescending.1 r hmem).le

end Package

/-! ### Catalogs -/

namespace Catalog

/-- The newest release of a package. -/
def IsNewest (c : Catalog) (name : String) (r : Release) : Prop :=
  r ∈ c.releases ∧ r.name = name ∧ ∀ q ∈ c.releases, q.name = name → q.version ≤ r.version

instance (c : Catalog) (name : String) (r : Release) : Decidable (c.IsNewest name r) :=
  inferInstanceAs (Decidable (_ ∧ _ ∧ ∀ q ∈ c.releases, _ → _))

lemma isNewest_of_newest? {c : Catalog} {name : String} {r : Release}
    (h : (c.package? name).bind Package.newest? = some r) : c.IsNewest name r := by
  obtain ⟨p, hp, hnewest⟩ := Option.bind_eq_some_iff.mp h
  obtain ⟨hmem, hmax⟩ := Package.newest?_eq_some hnewest
  rw [releases_of_package? hp] at hmem hmax
  obtain ⟨hr, hname⟩ := mem_releasesOf_iff.mp hmem
  exact ⟨hr, hname, fun q hq hqname => hmax q (mem_releasesOf_iff.mpr ⟨hq, hqname⟩)⟩

/-- A package that has a release has a newest one. -/
lemma exists_isNewest {c : Catalog} {r : Release} (h : r ∈ c.releases) :
    ∃ newest, c.IsNewest r.name newest := by
  obtain ⟨p, hp⟩ := exists_package?_of_mem h
  have hmem : r ∈ p.releases.toList := by
    rw [releases_of_package? hp]
    exact mem_releasesOf_iff.mpr ⟨h, rfl⟩
  have hnewest : p.newest? = some (p.releases.toList.getLast (List.ne_nil_of_mem hmem)) :=
    List.getLast?_eq_some_getLast _
  exact ⟨_, isNewest_of_newest? (by rw [hp]; exact hnewest)⟩

end Catalog

end PackagePlanner
