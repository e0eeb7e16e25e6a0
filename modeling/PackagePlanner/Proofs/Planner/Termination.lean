import PackagePlanner.Proofs.Planner.Change
import PackagePlanner.Proofs.Resolution.Bounds

/-!
Planning ends.

* `Problem.Ends`: how a resolution ends, with a selection or with an error.
* `Problem.Concludes`: an outcome is reached with a number of requests. Runs, requests, upgrades and
  settling conclude one after another (`Underway.concludes_run` to `Underway.concludes_finish`).
* `Problem.Bounded`: what bounds a resolution at every moment.
* `Planner.planning_ends`: each install and each upgrade concludes, and is bounded all the time.
-/

namespace PackagePlanner

namespace Problem

/-! ### The end of a resolution -/

/-- How a resolution ends: the selection and the tasks that it owes, and the outcome. -/
inductive Ends (p : Problem) : Selection → List Task → Except PlanError Selection → Prop
  /-- Nothing is left to do. -/
  | done {s : Selection} : p.Ends s [] (.ok s)
  /-- The next task cannot be performed. -/
  | stuck {s : Selection} {task : Task} {rest : List Task} {conflict : Conflict} :
      p.perform s task = .error conflict → p.Ends s (task :: rest) (.error (.resolution conflict))
  /-- An installed release that stays would be broken. -/
  | broken {s : Selection} {b : Broken} {e : PlanError} :
      p.broken? s = some b → e = b.blocked ∨ e = .resolution (b.conflict s) →
      p.Ends s [] (.error e)
  /-- The request is refused before anything is chosen. -/
  | refused {e : PlanError} : (∀ conflict, e ≠ .resolution conflict) → p.Ends {} [] (.error e)

/-- A resolution ends with the outcome once no more than the given number of releases have been
asked for. -/
def Concludes (p : Problem) (asked : Nat) (outcome : Except PlanError Selection) : Prop :=
  ∃ tally s tasks, p.Underway tally s tasks ∧ tally.asked ≤ asked ∧ p.Ends s tasks outcome

namespace Concludes

variable {p : Problem} {asked asked' : Nat} {outcome : Except PlanError Selection}

lemma mono (h : p.Concludes asked outcome) (hle : asked ≤ asked') :
    p.Concludes asked' outcome := by
  obtain ⟨tally, s, tasks, hs, hasked, hends⟩ := h
  exact ⟨tally, s, tasks, hs, hasked.trans hle, hends⟩

lemma refused {e : PlanError} (h : ∀ conflict, e ≠ .resolution conflict) :
    p.Concludes asked (.error e) :=
  ⟨{}, {}, [], .start, Nat.zero_le _, .refused h⟩

/-- A selection that a resolution ended with can be gone on with. -/
lemma underway {s : Selection} (h : p.Concludes asked (.ok s)) :
    ∃ tally, p.Underway tally s [] ∧ tally.asked ≤ asked := by
  obtain ⟨tally, _, _, hs, hasked, hends⟩ := h
  cases hends
  exact ⟨tally, hs, hasked⟩

end Concludes

namespace Underway

variable {p : Problem} {tally : Tally} {s : Selection}

theorem concludes_run {tasks : List Task} (h : p.Underway tally s tasks) :
    p.Concludes tally.asked ((p.run s tasks).mapError .resolution) := by
  fun_induction Problem.run p s tasks generalizing tally with
  | case1 s => exact ⟨tally, s, [], h, le_rfl, .done⟩
  | case2 s task rest conflict performed => exact ⟨tally, s, _, h, le_rfl, .stuck performed⟩
  | case3 s task rest t more performed ih => exact @ih (tally.step p s task) (h.performed performed)

lemma concludes_request {replaced : Keyed Release.id} {name : String} {c : Constraint}
    (h : p.Underway tally s []) (hreplaced : ∀ r ∈ replaced.toList, r ∈ p.installed.releases) :
    p.Concludes (tally.asked + 1)
      ((p.request { s with replaced } name c).mapError .resolution) :=
  (h.asked hreplaced).concludes_run

lemma concludes_pin {wanted old : Release} (h : p.Underway tally s [])
    (hold : old ∈ p.installed.releases) :
    p.Concludes (tally.asked + 1) ((p.pin s wanted (some old)).mapError .resolution) :=
  h.concludes_request fun r hr => (Keyed.mem_insert hr).elim (fun heq => heq ▸ hold)
    (h.standing.replaced r)

lemma concludes_cascade {b : Broken} (h : p.Underway tally s []) (hb : p.broken? s = some b) :
    p.Concludes (tally.asked + 1) (p.cascade s b) := by
  have blocked : p.Concludes (tally.asked + 1) (.error b.blocked) :=
    ⟨tally, s, [], h, Nat.le_succ _, .broken hb (.inl rfl)⟩
  rw [cascade]
  split
  · exact blocked
  · dsimp only
    split
    · exact blocked
    · exact h.concludes_pin (mem_of_broken? hb)

/-- Settling asks for one release in each round. -/
theorem concludes_settle (h : p.Underway tally s []) :
    p.Concludes (tally.asked + (p.cascades s).length) (p.settle s) := by
  fun_induction Problem.settle p s generalizing tally with
  | case1 s => exact ⟨tally, s, [], h, Nat.le_add_right _ _, .done⟩
  | case2 s b hb hcascade e he =>
      rw [cascades_of_error hb hcascade he, ← he]
      exact h.concludes_cascade hb
  | case3 s b hb hcascade t ht ih =>
      obtain ⟨tally', ht', hasked⟩ := (ht ▸ h.concludes_cascade hb).underway
      rw [cascades_of_ok hb hcascade ht, List.length_cons]
      exact (ih ht').mono (by omega)
  | case4 s b hb => exact ⟨tally, s, [], h, Nat.le_add_right _ _, .broken hb (.inr rfl)⟩

theorem concludes_finish (h : p.Underway tally s []) :
    p.Concludes (tally.asked + p.installed.releases.length) (p.finish s) := by
  rw [finish]
  split
  · rename_i hfollow
    exact h.concludes_settle.mono
      (Nat.add_le_add_left (h.standing.length_cascades_le hfollow) _)
  · exact ⟨tally, s, [], h, Nat.le_add_right _ _, .done⟩

end Underway

/-! ### Bounds -/

/-- What bounds a resolution. -/
structure Bounded (p : Problem) (tally : Tally) (s : Selection) (tasks : List Task) : Prop where
  /-- A package changes its choice at most as often as it has versions. -/
  changed : ∀ name, tally.changed.count name ≤ (p.versions name).length
  /-- A package that has changed its choice as often as it has candidates is given up. -/
  unsettled : ∀ task rest name, tasks = task :: rest → p.change? s task = some name →
    (p.candidates s name).length ≤ tally.changed.count name →
      p.perform s task = .error (.unsettled name (tally.changed.count name + 1))
  /-- The number of choices is bounded. -/
  chosen : tally.chosen.length ≤ p.choiceBound
  /-- The number of tasks is bounded. -/
  performed : tally.performed ≤ p.remaining {} [] + tally.asked
  /-- Settling upgrades installed releases, and none of them twice. -/
  cascades : tasks = [] → p.rules.follow = true →
    (p.cascades s).Nodup ∧ ∀ r ∈ p.cascades s, r ∈ p.installed.releases

/-- A resolution is bounded at every moment. -/
theorem Underway.bounded {p : Problem} {tally : Tally} {s : Selection} {tasks : List Task}
    (h : p.Underway tally s tasks) : p.Bounded tally s tasks where
  changed := h.count_changed_le
  unsettled task rest name _ hchange hmany := by
    rw [h.changed_eq] at hmany ⊢
    exact perform_eq_unsettled hchange hmany
  chosen := (Nat.le_add_right _ _).trans h.length_chosen_le
  performed := (Nat.le_add_right _ _).trans h.performed_le
  cascades hdone hfollow := by
    subst hdone
    exact h.standing.cascades hfollow

end Problem

/-- How many releases a change asks for. -/
def Change.requests : Change → Nat
  | .install _ _ => 1
  | .upgrade names _ => names.length

namespace Planner

variable {p : Planner} {follow : Bool}

/-! ### Installs and upgrades -/

lemma refused_constraint {text : String} {e : PlanError} (h : constraint text = .error e)
    (conflict : Conflict) : e ≠ .resolution conflict := by
  rw [constraint] at h
  cases hparse : Constraint.parse text <;> simp [hparse, Except.mapError] at h
  simp [← h]

lemma refused_newestInstalled {names : List String} {e : PlanError}
    (h : p.newestInstalled names = .error e) (conflict : Conflict) : e ≠ .resolution conflict := by
  induction names with
  | nil => exact nomatch h
  | cons name rest ih =>
      rw [newestInstalled, List.mapM_cons] at h
      cases hfound : (p.installed.package? name).bind Package.newest? with
      | none =>
          simp only [hfound, bind, Except.bind] at h
          simp [← Except.error.inj h]
      | some r =>
          cases hrest : p.newestInstalled rest with
          | error e' =>
              have hrefused := hrest
              rw [newestInstalled] at hrest
              simp only [hfound, hrest, bind, Except.bind] at h
              exact ih (Except.error.inj h ▸ hrefused)
          | ok others =>
              rw [newestInstalled] at hrest
              simp [hfound, hrest, bind, Except.bind, pure, Except.pure] at h

lemma concludes_installSelection (name text : String) :
    (p.installProblem follow).Concludes (1 + p.installed.releases.length)
      (p.installSelection name text follow) := by
  rw [installSelection]
  split
  · exact .refused (by simp)
  · split
    · rename_i he
      exact .refused (refused_constraint he)
    · rename_i c _
      split
      · exact .refused (by simp)
      · have hrequest : (p.installProblem follow).Concludes 1
            (((p.installProblem follow).request {} name c).mapError .resolution) :=
          Problem.Underway.start.concludes_request (by simp)
        split
        · rename_i conflict hconflict
          exact (hconflict ▸ hrequest).mono (by simp)
        · rename_i s hs
          obtain ⟨tally, hunderway, hasked⟩ := (hs ▸ hrequest).underway
          exact hunderway.concludes_finish.mono (Nat.add_le_add_right hasked _)

/-- Each upgrade asks for one release at most. -/
lemma concludes_pinUpgrades {tally : Problem.Tally} {s : Selection} {current : List Release}
    (h : (p.upgradeProblem follow).Underway tally s [])
    (hcurrent : ∀ r ∈ current, r ∈ p.installed.releases) (c : Constraint) :
    (p.upgradeProblem follow).Concludes (tally.asked + current.length)
      ((p.pinUpgrades follow c s current).mapError .resolution) := by
  induction current generalizing tally s with
  | nil => exact ⟨tally, s, [], h, le_rfl, .done⟩
  | cons r rest ih =>
      obtain ⟨hr, hrest⟩ := List.forall_mem_cons.mp hcurrent
      rw [pinUpgrades, List.length_cons]
      split
      · exact (ih h hrest).mono (by omega)
      · rename_i wanted _
        have hpin : (p.upgradeProblem follow).Concludes (tally.asked + 1)
            (((p.upgradeProblem follow).pin s wanted (some r)).mapError .resolution) :=
          h.concludes_pin hr
        split
        · rename_i conflict hconflict
          exact (hconflict ▸ hpin).mono (by omega)
        · rename_i t ht
          obtain ⟨tally', hunderway, hasked⟩ := (ht ▸ hpin).underway
          exact (ih hunderway hrest).mono (by omega)

lemma concludes_upgradeSelection (names : List String) (text : String) :
    (p.upgradeProblem follow).Concludes (names.length + p.installed.releases.length)
      (p.upgradeSelection names text follow) := by
  rw [upgradeSelection]
  split
  · rename_i he
    exact .refused (refused_constraint he)
  · rename_i c _
    split
    · rename_i he
      exact .refused (refused_newestInstalled he)
    · rename_i current hcurrent
      obtain ⟨hlength, hinstalled⟩ := mem_installed_of_newestInstalled hcurrent
      have hpins : (p.upgradeProblem follow).Concludes names.length
          ((p.pinUpgrades follow c {} current).mapError .resolution) :=
        (concludes_pinUpgrades .start hinstalled c).mono (by simp [hlength])
      split
      · rename_i conflict hconflict
        exact (hconflict ▸ hpins).mono (Nat.le_add_right _ _)
      · rename_i s hs
        obtain ⟨tally, hunderway, hasked⟩ := (hs ▸ hpins).underway
        exact hunderway.concludes_finish.mono (Nat.add_le_add_right hasked _)

theorem concludes_selectionWith (p : Planner) (follow : Bool) (change : Change) :
    (p.problemWith follow change).Concludes (change.requests + p.installed.releases.length)
      (p.selectionWith follow change) := by
  cases change with
  | install name text => exact concludes_installSelection name text
  | upgrade names text => exact concludes_upgradeSelection names text

/-- Planning ends, whatever the catalogs, the request and the rules: a change concludes once it has
asked for its packages and for at most one upgrade of each installed release, and it is bounded at
every moment. -/
theorem planning_ends (p : Planner) (follow : Bool) (change : Change) :
    (p.problemWith follow change).Concludes (change.requests + p.installed.releases.length)
        (p.selectionWith follow change) ∧
      ∀ tally s tasks, (p.problemWith follow change).Underway tally s tasks →
        (p.problemWith follow change).Bounded tally s tasks :=
  ⟨concludes_selectionWith p follow change, fun _ _ _ h => h.bounded⟩

/-- Each release of `x` accepts the other `lib`, so that every change of `x` changes `lib`. -/
def flippingLibrary : Planner where
  available := .ofReleases .repository [
    { name := "lib", version := ⟨1, 0, 0⟩ },
    { name := "lib", version := ⟨2, 0, 0⟩ },
    { name := "x", version := ⟨1, 0, 0⟩,
      dependencies := Keyed.ofList [⟨"lib", .atMost ⟨1, 9, 0⟩⟩] },
    { name := "x", version := ⟨2, 0, 0⟩,
      dependencies := Keyed.ofList [⟨"lib", .atLeast ⟨2, 0, 0⟩⟩] },
    { name := "x", version := ⟨3, 0, 0⟩,
      dependencies := Keyed.ofList [⟨"lib", .atMost ⟨1, 9, 0⟩⟩] },
    { name := "x", version := ⟨4, 0, 0⟩,
      dependencies := Keyed.ofList [⟨"lib", .atLeast ⟨2, 0, 0⟩⟩] },
    { name := "c3", version := ⟨1, 0, 0⟩,
      dependencies := Keyed.ofList [⟨"x", .atMost ⟨3, 9, 0⟩⟩] },
    { name := "c2", version := ⟨1, 0, 0⟩,
      dependencies := Keyed.ofList [⟨"x", .atMost ⟨2, 9, 0⟩⟩] },
    { name := "c1", version := ⟨1, 0, 0⟩,
      dependencies := Keyed.ofList [⟨"x", .atMost ⟨1, 9, 0⟩⟩] },
    { name := "app", version := ⟨1, 0, 0⟩,
      dependencies := Keyed.ofList [⟨"x", .any⟩, ⟨"c3", .any⟩, ⟨"c2", .any⟩, ⟨"c1", .any⟩] }]
  installed := .empty .installed

/-- The library has changed as often as it has versions when the request is given up. -/
theorem planning_ends_flippingLibrary :
    ∃ tally s task rest, (flippingLibrary.installProblem true).Underway tally s (task :: rest) ∧
      tally.asked ≤ 1 ∧
      (flippingLibrary.installProblem true).Bounded tally s (task :: rest) ∧
      (flippingLibrary.installProblem true).perform s task = .error (.unsettled "lib" 3) ∧
      ((flippingLibrary.installProblem true).versions "lib").length = 2 := by
  have hfails : (flippingLibrary.installSelection "app" "*" true).map (fun _ => ()) =
      .error (.resolution (.unsettled "lib" 3)) := by decide +kernel
  have houtcome : flippingLibrary.selectionWith true (.install "app" "*") =
      .error (.resolution (.unsettled "lib" 3)) := by
    cases h : flippingLibrary.installSelection "app" "*" true <;>
      simp_all [Except.map, selectionWith]
  obtain ⟨⟨tally, s, tasks, hunderway, hasked, hends⟩, hbounded⟩ :=
    planning_ends flippingLibrary true (.install "app" "*")
  rw [houtcome] at hends
  cases hends with
  | stuck hstuck =>
      exact ⟨tally, s, _, _, hunderway, hasked, hbounded _ _ _ hunderway, hstuck,
        by decide +kernel⟩
  | broken _ he =>
      rcases he with he | he <;> simp [Problem.Broken.blocked, Problem.Broken.conflict] at he
  | refused he => exact absurd rfl (he _)

end Planner

end PackagePlanner
