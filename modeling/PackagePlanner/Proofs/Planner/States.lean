import PackagePlanner.Proofs.Planner.Termination
import PackagePlanner.Proofs.Planner.Upgrade

/-!
The states that planning passes through.

* `Problem.Passes`: from one task to the next, one request or upgrade after another. These are
  states of a resolution (`Passes.underway`) in which each replaced release gives way to a newer one
  (`Passes.renews`).
* `Problem.Arises`: a conflict is that of a task which cannot be performed in such a state, or of a
  broken release.
* `Problem.Accounts`: an outcome is reached in such a state. Runs, upgrades and settling account for
  theirs (`Passes.accounts_run` to `Passes.accounts_finish`), and so does each install and each
  upgrade (`Planner.accounts_selectionWith`).
-/

namespace PackagePlanner

namespace Problem

variable {p : Problem} {s : Selection} {tasks : List Task}

/-! ### States of a change -/

/-- The states that planning passes through: the selections with the tasks that they owe. -/
inductive Passes (p : Problem) : Selection → List Task → Prop
  /-- Nothing is chosen at first. -/
  | start : p.Passes {} []
  /-- When nothing is left to do the caller may ask for a package. -/
  | asked {s : Selection} {name : String} {c : Constraint} :
      p.Passes s [] →
      p.Passes { s with requests := s.requests ++ [⟨name, c⟩] } [.require name c .request]
  /-- A newer release may be asked for in the place of an installed one. -/
  | renewed {s : Selection} {wanted old : Release} :
      p.Passes s [] →
      old ∈ p.installed.releases →
      wanted.name = old.name →
      old.version < wanted.version →
      p.Passes
        { s with
          replaced := s.replaced.insert old
          requests := s.requests ++ [⟨wanted.name, .exact wanted.version⟩] }
        [.require wanted.name (.exact wanted.version) .request]
  /-- The first task is performed. -/
  | performed {s t : Selection} {task : Task} {more rest : List Task} :
      p.Passes s (task :: rest) →
      p.perform s task = .ok (t, more) →
      p.Passes t (more ++ rest)

namespace Passes

lemma underway (h : p.Passes s tasks) : ∃ tally, p.Underway tally s tasks := by
  induction h with
  | start => exact ⟨_, .start⟩
  | asked _ ih =>
      obtain ⟨_, ih⟩ := ih
      exact ⟨_, ih.asked ih.standing.replaced⟩
  | renewed _ hold _ _ ih =>
      obtain ⟨_, ih⟩ := ih
      refine ⟨_, ih.asked fun r hr => ?_⟩
      rcases Keyed.mem_insert hr with rfl | hr
      · exact hold
      · exact ih.standing.replaced r hr
  | performed _ hperform ih =>
      obtain ⟨_, ih⟩ := ih
      exact ⟨_, ih.performed hperform⟩

/-- Each replaced release gives way to a newer one. -/
lemma renews (h : p.Passes s tasks) : s.Renews := by
  induction h with
  | start => exact fun r hr => by simp at hr
  | asked _ ih => exact ih.mono (List.subset_append_left _ _)
  | renewed _ _ hname hnewer ih => exact ih.renew hname hnewer
  | performed _ hperform ih =>
      obtain ⟨hreplaced, hrequests⟩ := kept_perform hperform
      rwa [Selection.Renews, hreplaced, hrequests]

end Passes

lemma keeps_passes (p : Problem) : p.Keeps p.Passes :=
  fun _ _ _ _ _ h hperform => h.performed hperform

/-! ### Where conflicts come from -/

/-- Where a conflict arises. -/
inductive Arises (p : Problem) : Conflict → Prop
  /-- The next task cannot be performed. -/
  | stuck {s : Selection} {task : Task} {rest : List Task} {conflict : Conflict} :
      p.Passes s (task :: rest) → p.perform s task = .error conflict → p.Arises conflict
  /-- An installed release that stays would be broken. -/
  | broken {s : Selection} {b : Broken} :
      p.Passes s [] → p.broken? s = some b → p.Arises (b.conflict s)

/-- An outcome is a state that planning passes through, or a conflict that arises in one. -/
structure Accounts (p : Problem) (outcome : Except PlanError Selection) : Prop where
  /-- What is chosen comes up with nothing left to do. -/
  passed : ∀ s, outcome = .ok s → p.Passes s []
  /-- A conflict arises. -/
  arises : ∀ conflict, outcome = .error (.resolution conflict) → p.Arises conflict

lemma Accounts.refused {e : PlanError} (h : ∀ conflict, e ≠ .resolution conflict) :
    p.Accounts (.error e) :=
  ⟨by simp, fun conflict he => absurd (Except.error.inj he) (h conflict)⟩

namespace Passes

lemma accounts (h : p.Passes s []) : p.Accounts (.ok s) :=
  ⟨fun _ ht => Except.ok.inj ht ▸ h, by simp⟩

theorem accounts_run (h : p.Passes s tasks) :
    p.Accounts ((p.run s tasks).mapError .resolution) := by
  obtain ⟨hok, herror⟩ := p.keeps_passes.run h
  cases hrun : p.run s tasks with
  | ok t => exact (hok t hrun).accounts
  | error conflict =>
      obtain ⟨u, task, rest, hu, hperform⟩ := herror conflict hrun
      refine ⟨by simp [Except.mapError], fun conflict' he => ?_⟩
      obtain rfl := PlanError.resolution.inj (Except.error.inj he)
      exact .stuck hu hperform

lemma accounts_pin {wanted old : Release} (h : p.Passes s []) (hold : old ∈ p.installed.releases)
    (hname : wanted.name = old.name) (hnewer : old.version < wanted.version) :
    p.Accounts ((p.pin s wanted (some old)).mapError .resolution) :=
  (h.renewed hold hname hnewer).accounts_run

lemma accounts_cascade {b : Broken} (h : p.Passes s []) (hb : p.broken? s = some b) :
    p.Accounts (p.cascade s b) := by
  rcases p.cascade_cases s b with hblocked | ⟨r, hname, hnewer, hpin⟩
  · rw [hblocked]
    exact .refused (by simp [Broken.blocked])
  · rw [hpin]
    exact h.accounts_pin (mem_of_broken? hb) hname hnewer

theorem accounts_settle (h : p.Passes s []) : p.Accounts (p.settle s) := by
  fun_induction Problem.settle p s with
  | case1 s => exact h.accounts
  | case2 s b hb _ e he => exact he ▸ h.accounts_cascade hb
  | case3 s b hb _ t ht ih => exact ih ((h.accounts_cascade hb).passed t ht)
  | case4 s b hb =>
      refine ⟨by simp, fun conflict he => ?_⟩
      obtain rfl := PlanError.resolution.inj (Except.error.inj he)
      exact .broken h hb

lemma accounts_finish (h : p.Passes s []) : p.Accounts (p.finish s) := by
  rw [finish]
  split
  · exact h.accounts_settle
  · exact h.accounts

end Passes
end Problem

namespace Planner

variable {p : Planner} {follow : Bool}

/-! ### Installs and upgrades -/

lemma accounts_installSelection (name text : String) :
    (p.installProblem follow).Accounts (p.installSelection name text follow) := by
  rw [installSelection]
  split
  · exact .refused (by simp)
  · split
    · rename_i he
      exact .refused (refused_constraint he)
    · rename_i c _
      split
      · exact .refused (by simp)
      · have hrequest : (p.installProblem follow).Accounts
            (((p.installProblem follow).request {} name c).mapError .resolution) :=
          Problem.Passes.start.asked.accounts_run
        split
        · rename_i conflict hconflict
          rwa [hconflict] at hrequest
        · rename_i s hs
          rw [hs] at hrequest
          exact (hrequest.passed s rfl).accounts_finish

lemma accounts_pinUpgrades {s : Selection} {current : List Release}
    (h : (p.upgradeProblem follow).Passes s [])
    (hcurrent : ∀ r ∈ current, r ∈ p.installed.releases) (c : Constraint) :
    (p.upgradeProblem follow).Accounts
      ((p.pinUpgrades follow c s current).mapError .resolution) := by
  induction current generalizing s with
  | nil => exact h.accounts
  | cons r rest ih =>
      obtain ⟨hr, hrest⟩ := List.forall_mem_cons.mp hcurrent
      rw [pinUpgrades]
      split
      · exact ih h hrest
      · rename_i wanted hwanted
        obtain ⟨⟨_, hname, hnewer, _⟩, _⟩ := upgradeOf_eq_some_iff.mp hwanted
        have hpin : (p.upgradeProblem follow).Accounts
            (((p.upgradeProblem follow).pin s wanted (some r)).mapError .resolution) :=
          h.accounts_pin hr hname hnewer
        split
        · rename_i conflict hconflict
          rwa [hconflict] at hpin
        · rename_i t ht
          rw [ht] at hpin
          exact ih (hpin.passed t rfl) hrest

lemma accounts_upgradeSelection (names : List String) (text : String) :
    (p.upgradeProblem follow).Accounts (p.upgradeSelection names text follow) := by
  rw [upgradeSelection]
  split
  · rename_i he
    exact .refused (refused_constraint he)
  · rename_i c _
    split
    · rename_i he
      exact .refused (refused_newestInstalled he)
    · rename_i current hcurrent
      have hpins : (p.upgradeProblem follow).Accounts
          ((p.pinUpgrades follow c {} current).mapError .resolution) :=
        accounts_pinUpgrades .start (mem_installed_of_newestInstalled hcurrent).2 c
      split
      · rename_i conflict hconflict
        rwa [hconflict] at hpins
      · rename_i s hs
        rw [hs] at hpins
        exact (hpins.passed s rfl).accounts_finish

theorem accounts_selectionWith (p : Planner) (follow : Bool) (change : Change) :
    (p.problemWith follow change).Accounts (p.selectionWith follow change) := by
  cases change with
  | install name text => exact accounts_installSelection name text
  | upgrade names text => exact accounts_upgradeSelection names text
end Planner

end PackagePlanner
