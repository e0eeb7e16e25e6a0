import PackagePlanner.Resolution.Outcome
import PackagePlanner.Proofs.Resolution.Sound

/-!
Who leaves, and who is hurt by it.

* `Problem.Standing`: a sound selection with nothing left to do, in which only installed releases
  are replaced. Asking for one more release keeps it so, and each dependency of a chosen release has
  a chosen target (`Standing.exists_target`).
* `Standing.mem_leaving_iff`: the releases that leave are the installed ones of which `isLeaving`
  says so.
* `Standing.broken?_eq_none_iff`: nobody is broken if each dependent that stays finds, of every
  package that loses a release, a version it accepts among what stays and what is chosen.
* `Problem.Settled`: the selection with which `settle` ends; nobody is broken in it.
-/

namespace PackagePlanner

namespace Problem

/-! ### Standing selections -/

/-- A sound selection in which only installed releases are replaced. -/
structure Standing (p : Problem) (s : Selection) : Prop extends Sound p s [] where
  /-- Every replaced release is installed. -/
  replaced : ∀ r ∈ s.replaced.toList, r ∈ p.installed.releases

namespace Standing

variable {p : Problem} {s t : Selection}

lemma empty (p : Problem) : p.Standing {} :=
  ⟨.empty p, by simp⟩

lemma request {name : String} {c : Constraint} (h : p.Standing s)
    (hrequest : p.request s name c = .ok t) : p.Standing t := by
  refine ⟨h.toSound.request hrequest, ?_⟩
  rw [(kept_run hrequest).1]
  exact h.replaced

lemma pin {wanted old : Release} (h : p.Standing s) (hold : old ∈ p.installed.releases)
    (hpin : p.pin s wanted (some old) = .ok t) : p.Standing t := by
  refine ⟨h.toSound.pin hpin, fun r hr => ?_⟩
  rw [replaced_pin hpin] at hr
  rcases Keyed.mem_insert hr with rfl | hr
  · exact hold
  · exact h.replaced r hr

lemma prune (h : p.Standing s) : p.Standing s.prune :=
  ⟨h.toSound.prune, h.replaced⟩

/-- Each dependency of a chosen release is an edge to a chosen release. -/
theorem exists_target (h : p.Standing s) (hfollow : p.rules.follow = true) {n : Graph.Node}
    (hn : n ∈ s.graph.nodes.toList) {d : Dependency} (hd : d ∈ n.release.dependencies.toList) :
    ⟨n.id, d.name, d.constraint⟩ ∈ s.graph.edges ∧
      ∃ m, s.graph.target? d.name d.constraint = some m := by
  have he : ⟨n.id, d.name, d.constraint⟩ ∈ s.graph.edges := by
    rcases h.followed hfollow n hn d hd with he | ⟨task, hmem, _⟩
    · exact he
    · simp at hmem
  refine ⟨he, h.toSound.target ?_⟩
  exact Selection.mem_constraintsOn_iff.mpr (.inr ⟨_, he, rfl, rfl⟩)

/-- An installed release is replaced if one of its name is. -/
lemma mem_replaced_iff (h : p.Standing s) {r : Release} (hr : r ∈ p.installed.releases) :
    s.replaced.contains r.id = true ↔ r ∈ s.replaced.toList := by
  rw [Keyed.contains_iff]
  refine ⟨?_, ?_⟩
  · rintro ⟨q, hq, hid⟩
    exact Catalog.eq_of_id_eq (h.replaced q hq) hr hid ▸ hq
  · exact fun hmem => ⟨r, hmem, rfl⟩

end Standing

/-! ### What leaves -/

lemma isLeaving_iff {p : Problem} {s : Selection} {r : Release} :
    p.isLeaving s r = true ↔ s.graph.contains r.id = false ∧
      (s.replaced.contains r.id = true ∨ (p.rules.sideBySide = false ∧
        ∃ n ∈ s.graph.nodes.toList, n.release.name = r.name ∧ n.installed = false)) := by
  simp only [isLeaving, Bool.and_eq_true, Bool.or_eq_true, Bool.not_eq_true', List.any_eq_true,
    Graph.mem_nodesNamed_iff, and_assoc]

/-- A chosen release stays. -/
lemma isLeaving_eq_false_of_mem {p : Problem} {s : Selection} {n : Graph.Node}
    (hn : n ∈ s.graph.nodes.toList) : p.isLeaving s n.release = false := by
  rw [Bool.eq_false_iff]
  intro h
  have hnot : s.graph.contains n.id = false := (isLeaving_iff.mp h).1
  rw [Graph.contains_of_mem hn] at hnot
  simp at hnot

namespace Standing

variable {p : Problem} {s : Selection}

theorem mem_leaving_iff (h : p.Standing s) {r : Release} :
    r ∈ (p.leaving s).toList ↔ r ∈ p.installed.releases ∧ p.isLeaving s r = true := by
  have hreplaced (r : Release) :
      r ∈ s.replaced.toList.filter (fun r => !s.graph.contains r.id) ↔
        r ∈ p.installed.releases ∧ s.graph.contains r.id = false ∧
          s.replaced.contains r.id = true := by
    rw [List.mem_filter, Bool.not_eq_true']
    refine ⟨?_, ?_⟩
    · rintro ⟨hr, hnot⟩
      exact ⟨h.replaced r hr, hnot, Keyed.contains_of_mem hr⟩
    · rintro ⟨hr, hnot, hin⟩
      exact ⟨(h.mem_replaced_iff hr).mp hin, hnot⟩
  rw [isLeaving_iff, leaving]
  by_cases hs : p.rules.sideBySide = true
  · rw [if_pos hs, Keyed.mem_ofList_iff, hreplaced r]
    · simp [hs]
    · exact fun q hq q' hq' hid =>
        Catalog.eq_of_id_eq ((hreplaced q).mp hq).1 ((hreplaced q').mp hq').1 hid
  · have hall (r : Release) :
        r ∈ (s.replaced.toList.filter fun r => !s.graph.contains r.id) ++
            (s.graph.nodes.toList.filter fun n => !n.installed).flatMap (fun n =>
              (p.installed.releasesOf n.release.name).filter fun r => !s.graph.contains r.id) ↔
          r ∈ p.installed.releases ∧ s.graph.contains r.id = false ∧
            (s.replaced.contains r.id = true ∨
              ∃ n ∈ s.graph.nodes.toList, n.release.name = r.name ∧ n.installed = false) := by
      rw [List.mem_append, hreplaced r]
      simp only [List.mem_flatMap, List.mem_filter, Bool.not_eq_true', Catalog.mem_releasesOf_iff]
      refine ⟨?_, ?_⟩
      · rintro (⟨hr, hnot, hin⟩ | ⟨n, ⟨hn, hi⟩, ⟨hr, hname⟩, hnot⟩)
        · exact ⟨hr, hnot, .inl hin⟩
        · exact ⟨hr, hnot, .inr ⟨n, hn, hname.symm, hi⟩⟩
      · rintro ⟨hr, hnot, hin | ⟨n, hn, hname, hi⟩⟩
        · exact .inl ⟨hr, hnot, hin⟩
        · exact .inr ⟨n, ⟨hn, hi⟩, ⟨hr, hname.symm⟩, hnot⟩
    rw [if_neg hs, Keyed.mem_ofList_iff, hall r]
    · simp [hs]
    · exact fun q hq q' hq' hid =>
        Catalog.eq_of_id_eq ((hall q).mp hq).1 ((hall q').mp hq').1 hid

/-- Whether an installed release leaves can be seen from its name. -/
lemma contains_leaving (h : p.Standing s) {r : Release} (hr : r ∈ p.installed.releases) :
    (p.leaving s).contains r.id = p.isLeaving s r := by
  rw [Bool.eq_iff_iff, Keyed.contains_iff]
  refine ⟨?_, ?_⟩
  · rintro ⟨q, hq, hid⟩
    obtain ⟨hqi, hleaving⟩ := h.mem_leaving_iff.mp hq
    rwa [← Catalog.eq_of_id_eq hqi hr hid]
  · exact fun hleaving => ⟨r, h.mem_leaving_iff.mpr ⟨hr, hleaving⟩, rfl⟩

/-! ### Who is broken -/

/-- A version that a constraint accepts is left if one stays or is chosen. -/
lemma remains_iff (h : p.Standing s) {name : String} {c : Constraint} :
    p.remains s (p.leaving s) name c = true ↔
      (∃ r ∈ p.installed.releases, p.isLeaving s r = false ∧
        (⟨name, c⟩ : Dependency).Accepts r) ∨
      ∃ n ∈ s.graph.nodes.toList, (⟨name, c⟩ : Dependency).Accepts n.release := by
  rw [remains, Bool.or_eq_true, Graph.isSome_target?_iff, List.any_eq_true]
  refine or_congr_left ⟨?_, ?_⟩
  · rintro ⟨r, hr, htest⟩
    obtain ⟨hr, hname⟩ := Catalog.mem_releasesOf_iff.mp hr
    rw [h.contains_leaving hr, Bool.and_eq_true, Bool.not_eq_true'] at htest
    exact ⟨r, hr, htest.1, hname, htest.2⟩
  · rintro ⟨r, hr, hstays, hname, hadmits⟩
    refine ⟨r, Catalog.mem_releasesOf_iff.mpr ⟨hr, hname⟩, ?_⟩
    rw [h.contains_leaving hr, Bool.and_eq_true, Bool.not_eq_true']
    exact ⟨hstays, hadmits⟩

/-- A broken release stays, and nothing remains of what it needs of another package, which loses a
release. -/
lemma broken?_eq_some (h : p.Standing s) {b : Broken} (hb : p.broken? s = some b) :
    b.dependent ∈ p.installed.releases ∧ p.isLeaving s b.dependent = false ∧
      ⟨b.name, b.constraint⟩ ∈ b.dependent.dependencies.toList ∧ b.name ≠ b.dependent.name ∧
        p.remains s (p.leaving s) b.name b.constraint = false ∧
          ∃ q ∈ p.installed.releases, q.name = b.name ∧ p.isLeaving s q = true := by
  obtain ⟨_, q, _, hleaving, hfound, _⟩ := List.findSome?_eq_some_iff.mp hb
  obtain ⟨⟨r, c⟩, hfind, rfl⟩ := Option.map_eq_some_iff.mp hfound
  obtain ⟨hr, hne, hd⟩ := Catalog.mem_dependentsOf_iff.mp (List.mem_of_find?_eq_some hfind)
  have htest := List.find?_some hfind
  rw [Bool.and_eq_true, Bool.not_eq_true', Bool.not_eq_true', h.contains_leaving hr] at htest
  have hq : q ∈ (p.leaving s).toList := by simp [hleaving]
  obtain ⟨hqi, hqleaving⟩ := h.mem_leaving_iff.mp hq
  exact ⟨hr, htest.1, hd, hne.symm, htest.2, q, hqi, rfl, hqleaving⟩

theorem broken?_eq_none_iff (h : p.Standing s) :
    p.broken? s = none ↔
      ∀ q ∈ p.installed.releases, p.isLeaving s q = true →
        ∀ r ∈ p.installed.releases, p.isLeaving s r = false →
          ∀ d ∈ r.dependencies.toList, d.name = q.name → d.name ≠ r.name →
            p.remains s (p.leaving s) d.name d.constraint = true := by
  simp only [broken?, List.findSome?_eq_none_iff, Option.map_eq_none_iff, List.find?_eq_none,
    h.mem_leaving_iff, Bool.and_eq_true, Bool.not_eq_true', not_and, Bool.not_eq_false]
  refine ⟨?_, ?_⟩
  · intro hnone q hq hleaving r hr hstays d hd hname hne
    rw [hname]
    refine hnone q ⟨hq, hleaving⟩ (r, d.constraint) ?_ ((h.contains_leaving hr).trans hstays)
    exact Catalog.mem_dependentsOf_iff.mpr ⟨hr, hname ▸ hne.symm, hname ▸ hd⟩
  · rintro hall q ⟨hq, hleaving⟩ ⟨r, c⟩ hdep hstays
    obtain ⟨hr, hne, hd⟩ := Catalog.mem_dependentsOf_iff.mp hdep
    rw [h.contains_leaving hr] at hstays
    exact hall q hq hleaving r hr hstays ⟨q.name, c⟩ hd rfl hne.symm

end Standing

/-! ### Settling -/

/-- A standing selection in which nobody is broken, if dependencies are followed. -/
structure Settled (p : Problem) (s : Selection) : Prop extends Standing p s where
  /-- Nobody is broken. -/
  unbroken : p.rules.follow = true → p.broken? s = none

lemma Standing.cascade {p : Problem} {s t : Selection} {b : Broken} (h : p.Standing s)
    (hb : p.broken? s = some b) (hcascade : p.cascade s b = .ok t) : p.Standing t := by
  obtain ⟨_, _, hpin⟩ := pin_of_cascade hcascade
  exact h.pin (mem_of_broken? hb) hpin

/-- What each upgrade of a broken release keeps holds once all are settled, and nobody is broken
then. -/
theorem settle_keeps {p : Problem} {holds : Selection → Prop}
    (hcascade : ∀ s b t, holds s → p.broken? s = some b → p.cascade s b = .ok t → holds t)
    {s t : Selection} (hs : holds s) (hsettle : p.settle s = .ok t) :
    holds t ∧ p.broken? t = none := by
  fun_induction Problem.settle p s with
  | case1 s hnone =>
      obtain rfl := Except.ok.inj hsettle
      exact ⟨hs, hnone⟩
  | case2 => simp at hsettle
  | case3 s b hb _ u hu ih => exact ih (hcascade s b u hs hb hu) hsettle
  | case4 => simp at hsettle

/-- The same of what is chosen in the end, if dependencies are followed. -/
theorem finish_keeps {p : Problem} {holds : Selection → Prop}
    (hcascade : ∀ s b t, holds s → p.broken? s = some b → p.cascade s b = .ok t → holds t)
    {s t : Selection} (hs : holds s) (hfinish : p.finish s = .ok t) :
    holds t ∧ (p.rules.follow = true → p.broken? t = none) := by
  rw [Problem.finish] at hfinish
  split at hfinish
  · exact (settle_keeps hcascade hs hfinish).imp_right fun hnone _ => hnone
  · rename_i hf
    obtain rfl := Except.ok.inj hfinish
    exact ⟨hs, fun hfollow => absurd hfollow hf⟩

/-- What is chosen in the end is settled. -/
theorem Standing.finish {p : Problem} {s t : Selection} (h : p.Standing s)
    (hfinish : p.finish s = .ok t) : p.Settled t := by
  obtain ⟨ht, hnone⟩ := finish_keeps (fun _ _ _ h hb hu => h.cascade hb hu) h hfinish
  exact ⟨ht, hnone⟩

end Problem

end PackagePlanner
