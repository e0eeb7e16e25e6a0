import PackagePlanner.Proofs.Catalog.Order
import PackagePlanner.Proofs.Resolution.Step

/-!
Resolutions that go the same way.

* `Problem.Alike`: two problems with the same rules that have the same releases of a package and
  the same hints for it. Then a requirement on the package is met in the same way
  (`Alike.require_eq`), whatever there is of other packages.
* `Keeps.run_eq`: if this is so for each requirement that can come up, a whole run is the same.
-/

namespace PackagePlanner

namespace Problem

/-- Two problems with the same rules and the same choices for a package. -/
structure Alike (p q : Problem) (name : String) : Prop where
  /-- The rules are the same. -/
  rules : p.rules = q.rules
  /-- The same releases of the package are available. -/
  available : p.available.releasesOf name = q.available.releasesOf name
  /-- The same releases of the package are installed. -/
  installed : p.installed.releasesOf name = q.installed.releasesOf name
  /-- The hints for the package are the same, though perhaps in another order. -/
  hints : ∀ s test, (p.hints s name).all test = (q.hints s name).all test

namespace Alike

variable {p q : Problem} {name : String} (h : p.Alike q name)

include h

/-! ### Choices -/

lemma candidates_eq (s : Selection) : p.candidates s name = q.candidates s name := by
  rw [candidates, candidates, h.installed, h.available]
  congr 2
  refine List.filter_congr fun r hr => ?_
  have hname : r.id.name = name := Catalog.name_of_mem_releasesOf (List.mem_reverse.mp hr)
  rw [Catalog.containsRelease_eq (hname ▸ h.installed)]

lemma choose_eq (s : Selection) (required : List Constraint) :
    p.choose s name required = q.choose s name required := by
  simp only [choose, h.candidates_eq, h.hints]

lemma unsatisfiable_eq (c : Constraint) (requirer : Requirer) :
    p.unsatisfiable name c requirer = q.unsatisfiable name c requirer := by
  rw [unsatisfiable, unsatisfiable, Catalog.package?_eq h.available,
    Catalog.package?_eq h.installed]

lemma select_eq (s : Selection) (n : Graph.Node) : p.select s n = q.select s n := by
  rw [select, select, h.rules]

/-- A requirement on the package is met in the same way. -/
theorem require_eq (s : Selection) (c : Constraint) (requirer : Requirer) :
    p.require s name c requirer = q.require s name c requirer := by
  simp only [require, selectFor, reselect, incompatible, h.rules, h.choose_eq, h.unsatisfiable_eq,
    h.select_eq, h.candidates_eq]

end Alike

/-! ### Runs -/

variable {p q : Problem}

/-- Only requirements look at what there is to choose. -/
lemma perform_eq {s : Selection} {task : Task}
    (h : ∀ name c requirer, task = .require name c requirer → p.Alike q name) :
    p.perform s task = q.perform s task := by
  cases task with
  | require name c requirer => exact (h name c requirer rfl).require_eq ..
  | follow id dependencies => cases dependencies <;> rfl
  | prune => rfl

/-- If every task that can come up is performed in the same way, a run is the same. -/
theorem Keeps.run_eq {holds : Selection → List Task → Prop} (h : p.Keeps holds)
    (heq : ∀ s task rest, holds s (task :: rest) → p.perform s task = q.perform s task)
    {s : Selection} {tasks : List Task} (hs : holds s tasks) : p.run s tasks = q.run s tasks := by
  fun_induction Problem.run p s tasks with
  | case1 s => rw [Problem.run]
  | case2 s task rest conflict performed =>
      rw [heq s task rest hs] at performed
      rw [Problem.run]
      split <;> simp_all
  | case3 s task rest t more performed ih =>
      rw [ih (h s task rest t more hs performed), Problem.run.eq_def q s]
      rw [heq s task rest hs] at performed
      simp only
      split <;> simp_all

end Problem

end PackagePlanner
