import PackagePlanner.Resolution.Task

/-!
Why a resolution ends.

* Every task but `prune` either lowers the `weight` of the tasks or chooses a release that was not
  chosen (`unselected_lt`).
* Releases leave the selection only when a choice is changed, and that uses up the `allowance`
  (`allowance_lt`); a package may change its choice as often as it has releases.
* `Problem.remaining` combines the three counts, and `remaining_perform_lt` says that it falls
  with each task performed.
-/

namespace PackagePlanner

/-! ### Counting in lists -/

/-- A test that fewer elements pass counts fewer. -/
theorem countP_lt_countP {α : Type} {p q : α → Bool} {as : List α} {a : α}
    (h : ∀ b ∈ as, p b = true → q b = true) (ha : a ∈ as) (hq : q a = true) (hp : p a = false) :
    as.countP p < as.countP q := by
  obtain ⟨before, after, rfl⟩ := List.append_of_mem ha
  have hbefore : before.countP p ≤ before.countP q :=
    List.countP_mono_left fun b hb => h b (List.mem_append_left _ hb)
  have hafter : after.countP p ≤ after.countP q :=
    List.countP_mono_left fun b hb => h b (List.mem_append_right _ (List.mem_cons_of_mem a hb))
  simp only [List.countP_append, List.countP_cons, hp, hq, Bool.false_eq_true, if_false, if_true]
  omega

namespace Problem

/-! ### The counts -/

/-- The releases that can be chosen. -/
def releases (p : Problem) : List Release :=
  p.installed.releases ++ p.available.releases

/-- How many releases of a package there are. -/
def releaseCount (p : Problem) (name : String) : Nat :=
  (p.installed.releasesOf name).length + (p.available.releasesOf name).length

/-- How many releases are not chosen. -/
def unselected (p : Problem) (s : Selection) : Nat :=
  p.releases.countP fun r => !s.graph.contains r.id

/-- The changes of choices that there may be, numbered package by package: each release lets its
package change the choice as often as the package has releases. -/
def changes (p : Problem) : List (String × Nat) :=
  p.releases.flatMap fun r => (List.range (p.releaseCount r.name)).map (r.name, ·)

/-- How many of the changes are still to come. -/
def allowance (p : Problem) (s : Selection) : Nat :=
  p.changes.countP fun change => decide (s.reselected.count change.1 ≤ change.2)

/-- A bound on the number of dependencies that one release declares. -/
def dependencyBound (p : Problem) : Nat :=
  (p.releases.flatMap fun r => r.dependencies.toList).length

end Problem

/-- Whether a task drops what is not needed. -/
def Task.isPrune : Task → Bool
  | .prune => true
  | _ => false

/-- The dependencies that a task has yet to follow. -/
def Task.unfollowed : Task → List Dependency
  | .follow _ rest => rest
  | _ => []

/-- What some tasks cost together, the choices they lead to apart: twice each dependency to be
followed, and each task that is no drop. -/
def Task.weight (tasks : List Task) : Nat :=
  2 * (tasks.flatMap Task.unfollowed).length + tasks.countP fun task => !task.isPrune

theorem Task.weight_append (tasks more : List Task) :
    weight (tasks ++ more) = weight tasks + weight more := by
  simp only [weight, List.countP_append, List.flatMap_append, List.length_append]
  omega

theorem Task.weight_cons (task : Task) (tasks : List Task) :
    weight (task :: tasks) = weight [task] + weight tasks :=
  weight_append [task] tasks

theorem Task.weight_require (name : String) (c : Constraint) (requirer : Requirer) :
    weight [.require name c requirer] = 1 := rfl

theorem Task.weight_follow (id : ReleaseId) (rest : List Dependency) :
    weight [.follow id rest] = 2 * rest.length + 1 := by
  simp [weight, unfollowed, isPrune]

theorem Task.weight_prune : weight [.prune] = 0 := rfl

namespace Problem

/-- What a choice is worth: more than following the dependencies of one release. -/
def choiceCost (p : Problem) : Nat := 2 * p.dependencyBound + 2

/-- What a drop is worth: more than choosing every release. -/
def pruneCost (p : Problem) : Nat := (p.releases.length + 1) * p.choiceCost

/-- How much is left to do. -/
def remaining (p : Problem) (s : Selection) (tasks : List Task) : Nat :=
  (2 * p.allowance s + tasks.countP Task.isPrune) * p.pruneCost + p.unselected s * p.choiceCost +
    Task.weight tasks

/-! ### Candidates -/

theorem mem_releases_of_mem_candidates {p : Problem} {s : Selection} {name : String}
    {n : Graph.Node} (h : n ∈ p.candidates s name) :
    n.release ∈ p.releases ∧ n.release.name = name := by
  rcases List.mem_append.mp h with h | h <;> obtain ⟨r, hr, rfl⟩ := List.mem_map.mp h <;>
    have hr := List.mem_reverse.mp (List.mem_filter.mp hr).1
  · exact ⟨List.mem_append_left _ (Catalog.mem_releases_of_mem_releasesOf hr),
      Catalog.name_of_mem_releasesOf hr⟩
  · exact ⟨List.mem_append_right _ (Catalog.mem_releases_of_mem_releasesOf hr),
      Catalog.name_of_mem_releasesOf hr⟩

theorem length_candidates_le (p : Problem) (s : Selection) (name : String) :
    (p.candidates s name).length ≤ p.releaseCount name := by
  simp only [candidates, releaseCount, List.length_append, List.length_map]
  have h₁ := List.length_filter_le (fun r => !s.replaced.contains r.id)
    (p.installed.releasesOf name).reverse
  have h₂ := List.length_filter_le (fun r => !p.installed.containsRelease r.id)
    (p.available.releasesOf name).reverse
  rw [List.length_reverse] at h₁ h₂
  omega

theorem mem_candidates_of_choose {p : Problem} {s : Selection} {name : String}
    {required : List Constraint} {n : Graph.Node} (h : p.choose s name required = some n) :
    n ∈ p.candidates s name ∧ ∀ c ∈ required, c.admits n.release.version = true := by
  have key : n ∈ (p.candidates s name).filter fun n =>
      required.all fun c => c.admits n.release.version := by
    rcases Option.or_eq_some_iff.mp h with h | ⟨_, h⟩
    · exact List.mem_of_find?_eq_some h
    · exact List.mem_of_head? h
  simpa using List.mem_filter.mp key

theorem length_dependencies_le {p : Problem} {r : Release} (h : r ∈ p.releases) :
    r.dependencies.toList.length ≤ p.dependencyBound := by
  rw [dependencyBound, List.flatMap_def]
  have hmem := List.mem_map_of_mem (f := fun r : Release => r.dependencies.toList) h
  exact (List.sublist_flatten_of_mem hmem).length_le

/-! ### One task -/

theorem unselected_le (p : Problem) (s : Selection) : p.unselected s ≤ p.releases.length :=
  List.countP_le_length

theorem unselected_lt {p : Problem} {s t : Selection} {n : Graph.Node}
    (hn : n.release ∈ p.releases) (hs : s.graph.contains n.id = false)
    (ht : t.graph = s.graph.addNode n) : p.unselected t < p.unselected s := by
  refine countP_lt_countP (a := n.release) (fun r _ hr => ?_) hn ?_ ?_
  · rw [ht, Graph.contains_addNode] at hr
    simp_all
  · simpa [Graph.Node.id] using hs
  · simp [ht, Graph.contains_addNode, Graph.Node.id]

theorem allowance_lt {p : Problem} {s t : Selection} {r : Release}
    (hr : r ∈ p.releases) (ht : t.reselected = r.name :: s.reselected)
    (hs : s.reselected.count r.name < p.releaseCount r.name) : p.allowance t < p.allowance s := by
  have hnext : (r.name, s.reselected.count r.name) ∈ p.changes :=
    List.mem_flatMap.mpr ⟨r, hr, List.mem_map.mpr ⟨_, List.mem_range.mpr hs, rfl⟩⟩
  refine countP_lt_countP (fun change _ hleft => ?_) hnext ?_ ?_
  · rw [decide_eq_true_eq, ht] at hleft
    exact decide_eq_true (Nat.le_trans List.count_le_count_cons hleft)
  · simp
  · simp [ht]

/-- Choosing a release adds the node, and at most one task. -/
theorem select_eq {p : Problem} {s : Selection} {n : Graph.Node} {t : Selection}
    {more : List Task} (h : p.select s n = (t, more)) :
    t.graph = s.graph.addNode n ∧ t.reselected = s.reselected ∧ t.replaced = s.replaced ∧
      t.requests = s.requests ∧ more.countP Task.isPrune = 0 ∧
      Task.weight more ≤ 2 * n.release.dependencies.toList.length + 1 := by
  unfold select at h
  split at h <;> obtain ⟨rfl, rfl⟩ := Prod.mk.inj h <;>
    simp [Task.weight, Task.unfollowed, Task.isPrune]

theorem remaining_select_lt {p : Problem} {s : Selection} {n : Graph.Node} {t : Selection}
    {more rest : List Task} (h : p.select s n = (t, more)) (hn : n.release ∈ p.releases)
    (hs : s.graph.contains n.id = false) :
    p.remaining t (more ++ rest) < p.remaining s rest := by
  obtain ⟨hg, hr, _, _, hp, hw⟩ := select_eq h
  have lt := unselected_lt hn hs hg
  have few := length_dependencies_le hn
  have same : p.allowance t = p.allowance s := by simp only [allowance, hr]
  have cost : (p.unselected t + 1) * p.choiceCost ≤ p.unselected s * p.choiceCost :=
    Nat.mul_le_mul_right _ lt
  simp only [remaining, same, List.countP_append, hp, Task.weight_append, Nat.zero_add]
  rw [Nat.add_mul] at cost
  have : p.choiceCost = 2 * p.dependencyBound + 2 := rfl
  omega

theorem contains_eq_false_of_target? {g : Graph} {name : String} {c : Constraint}
    {n : Graph.Node} (h : g.target? name c = none) (hn : n.release.name = name)
    (ha : c.admits n.release.version = true) : g.contains n.id = false := by
  rw [Graph.target?_eq_none_iff] at h
  simp only [Graph.contains, Keyed.contains, List.any_eq_false, beq_iff_eq]
  intro m hm hid
  have hname : m.release.name = n.release.name := congrArg ReleaseId.name hid
  have hversion : m.release.version = n.release.version := congrArg ReleaseId.version hid
  have := h m hm (hname.trans hn)
  rw [hversion, ha] at this
  simp at this

theorem remaining_selectFor_lt {p : Problem} {s : Selection} {name : String} {c : Constraint}
    {requirer : Requirer} {required : List Constraint} {t : Selection} {more rest : List Task}
    (h : p.selectFor s name c requirer required = .ok (t, more))
    (free : ∀ n ∈ p.candidates s name,
      (∀ d ∈ required, d.admits n.release.version = true) → s.graph.contains n.id = false) :
    p.remaining t (more ++ rest) < p.remaining s rest := by
  unfold selectFor at h
  split at h
  · simp at h
  · rename_i n hn
    obtain ⟨hmem, hadmits⟩ := mem_candidates_of_choose hn
    exact remaining_select_lt (Except.ok.inj h) (mem_releases_of_mem_candidates hmem).1
      (free n hmem hadmits)

theorem remaining_reselect_lt {p : Problem} {s : Selection} {name : String} {c : Constraint}
    {requirer : Requirer} {t : Selection} {more rest : List Task}
    (h : p.reselect s name c requirer = .ok (t, more)) :
    p.remaining t (more ++ rest) < p.remaining s rest := by
  unfold reselect at h
  split at h
  · simp at h
  · rename_i n hn
    obtain ⟨hmem, _⟩ := mem_candidates_of_choose hn
    obtain ⟨hrel, hname⟩ := mem_releases_of_mem_candidates hmem
    simp only at h
    split at h
    · simp at h
    · rename_i few
      have hsel := Prod.eta (p.select
        ({ s with reselected := name :: s.reselected }.deselect name) n)
      obtain ⟨hg, hr, _, _, hp, hw⟩ := select_eq hsel.symm
      obtain ⟨rfl, rfl⟩ := Prod.mk.inj (Except.ok.inj h)
      have lt := allowance_lt (s := s) hrel (by rw [hr, hname]; rfl)
        (by have := p.length_candidates_le s name; rw [hname]; omega)
      have all := p.unselected_le
        (p.select ({ s with reselected := name :: s.reselected }.deselect name) n).1
      have deps := length_dependencies_le hrel
      have budget := Nat.mul_le_mul_right p.pruneCost (Nat.mul_le_mul_left 2 lt)
      have choices := Nat.mul_le_mul_right p.choiceCost all
      have hc : p.choiceCost = 2 * p.dependencyBound + 2 := rfl
      have hpc : p.pruneCost = p.releases.length * p.choiceCost + p.choiceCost := by
        simp [pruneCost, Nat.add_mul]
      simp only [remaining, List.countP_append, hp, Task.weight_append, Task.weight_prune]
      simp only [List.countP_cons, List.countP_nil, Task.isPrune, Nat.add_mul, Nat.mul_add,
        Nat.succ_eq_add_one, if_true] at *
      omega

theorem nodes_note (s : Selection) (name : String) (c : Constraint) (requirer : Requirer) :
    (s.note name c requirer).graph.nodes = s.graph.nodes ∧
      (s.note name c requirer).reselected = s.reselected ∧
      (s.note name c requirer).replaced = s.replaced ∧
      (s.note name c requirer).requests = s.requests := by
  cases requirer with
  | request => simp [Selection.note]
  | release id =>
    refine ⟨?_, rfl, rfl, rfl⟩
    simp only [Selection.note, Graph.addEdge]
    split <;> rfl

theorem remaining_congr {p : Problem} {s t : Selection} {tasks : List Task}
    (hn : t.graph.nodes = s.graph.nodes) (hr : t.reselected = s.reselected) :
    p.remaining t tasks = p.remaining s tasks := by
  simp only [remaining, allowance, unselected, Graph.contains, hn, hr]

theorem remaining_require_lt {p : Problem} {s : Selection} {name : String} {c : Constraint}
    {requirer : Requirer} {t : Selection} {more rest : List Task}
    (h : p.require s name c requirer = .ok (t, more)) :
    p.remaining t (more ++ rest) < p.remaining s rest + 1 := by
  unfold require at h
  split at h
  · obtain ⟨rfl, rfl⟩ := Prod.mk.inj (Except.ok.inj h)
    simp
  · rename_i hnone
    have hnone : s.graph.target? name c = none := by simpa using hnone
    split at h
    · refine Nat.lt_succ_of_lt (remaining_selectFor_lt h fun n hn ha => ?_)
      exact contains_eq_false_of_target? hnone (mem_releases_of_mem_candidates hn).2
        (ha c List.mem_cons_self)
    · split at h
      · rename_i hempty
        refine Nat.lt_succ_of_lt (remaining_selectFor_lt h fun n hn _ => ?_)
        have hname := (mem_releases_of_mem_candidates hn).2
        simp only [Graph.nodesNamed, List.isEmpty_iff, List.filter_eq_nil_iff, beq_iff_eq]
          at hempty
        simp only [Graph.contains, Keyed.contains, List.any_eq_false, beq_iff_eq]
        exact fun m hm hid => hempty m hm ((congrArg ReleaseId.name hid).trans hname)
      · exact Nat.lt_succ_of_lt (remaining_reselect_lt h)

/-- Each task performed leaves less to do. -/
theorem remaining_perform_lt {p : Problem} {s t : Selection} {task : Task}
    {more rest : List Task} (h : p.perform s task = .ok (t, more)) :
    p.remaining t (more ++ rest) < p.remaining s (task :: rest) := by
  match task with
  | .require name c requirer =>
    have lt : p.remaining t (more ++ rest) <
        p.remaining (s.note name c requirer) rest + 1 := remaining_require_lt h
    obtain ⟨hn, hr, _, _⟩ := nodes_note s name c requirer
    rw [remaining_congr (p := p) hn hr] at lt
    simp only [remaining, Task.weight_cons _ rest, Task.weight_require, List.countP_cons,
      Task.isPrune] at lt ⊢
    simp only [Bool.false_eq_true, if_false, Nat.add_zero]
    omega
  | .follow id [] =>
    obtain ⟨rfl, rfl⟩ := Prod.mk.inj (Except.ok.inj h)
    simp only [List.nil_append, remaining, allowance, unselected, Task.weight_cons _ rest,
      Task.weight_follow, List.countP_cons, Task.isPrune]
    simp
  | .follow id (d :: deps) =>
    simp only [perform] at h
    split at h <;> obtain ⟨rfl, rfl⟩ := Prod.mk.inj (Except.ok.inj h) <;>
      simp only [List.nil_append, List.cons_append, remaining, allowance, unselected,
        Task.weight_cons _ rest, Task.weight_cons _ (_ :: rest), Task.weight_require,
        Task.weight_follow, List.countP_cons, Task.isPrune, List.length_cons] <;>
      simp only [Bool.false_eq_true, if_false, Nat.add_zero] <;>
      omega
  | .prune =>
    obtain ⟨rfl, rfl⟩ := Prod.mk.inj (Except.ok.inj h)
    have all := p.unselected_le s.prune
    have choices := Nat.mul_le_mul_right p.choiceCost all
    have hpc : p.pruneCost = p.releases.length * p.choiceCost + p.choiceCost := by
      simp [pruneCost, Nat.add_mul]
    have hc : 0 < p.choiceCost := by simp [choiceCost]
    have same : p.allowance s.prune = p.allowance s := rfl
    simp only [List.nil_append, remaining, same, Task.weight_cons _ rest, Task.weight_prune,
      List.countP_cons, Task.isPrune, if_true, Nat.add_mul, Nat.one_mul]
    omega

end Problem

end PackagePlanner
