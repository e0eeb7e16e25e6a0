import PackagePlanner.Proofs.Resolution.Departure

/-!
How long a resolution can go on.

* `Problem.Underway`: the states that a resolution passes through while the caller asks for one
  release after another, with a `Tally` of what was done on the way. Nothing is said of where the
  requests come from, and a run that fails passes through such states as well.
* `Problem.choicesLeft` falls with each choice, because a choice that is taken back uses up the
  package's allowance. `Underway.length_chosen_le` and `Underway.performed_le` follow by induction.
* `Problem.versions`: a package changes its choice at most as often as it has versions
  (`Underway.count_changed_le`); an attempt beyond its candidates fails (`perform_eq_unsettled`).
* `Problem.cascades`: the dependents that settling upgrades one after another, each of them once
  (`Standing.cascades`), because a broken dependent is never replaced.
-/

namespace PackagePlanner

namespace Problem

/-! ### Versions -/

/-- The versions of a package in both catalogs together. -/
def versions (p : Problem) (name : String) : List Version :=
  ((p.installed.releasesOf name ++ p.available.releasesOf name).map Release.version).dedup

/-- The candidates for a package are of different versions. -/
lemma nodup_versions_candidates (p : Problem) (s : Selection) (name : String) :
    ((p.candidates s name).map fun n => n.release.version).Nodup := by
  have part (c : Catalog) (keep : Release → Bool) (installed : Bool) :
      (((((c.releasesOf name).reverse.filter keep).map fun r => (⟨r, installed⟩ : Graph.Node)).map
        fun n => n.release.version)).Nodup := by
    rw [List.map_map]
    refine List.Nodup.sublist (List.filter_sublist.map Release.version) ?_
    rw [List.map_reverse, List.nodup_reverse]
    exact c.nodup_versions name
  rw [candidates, List.map_append]
  refine List.nodup_append.mpr ⟨part .., part .., fun v hv w hw heq => ?_⟩
  -- an available release of the version of an installed one is no candidate
  simp only [List.mem_map, List.mem_filter, List.mem_reverse, Bool.not_eq_true'] at hv hw
  obtain ⟨_, ⟨r, ⟨hr, _⟩, rfl⟩, rfl⟩ := hv
  obtain ⟨_, ⟨q, ⟨hq, hnot⟩, rfl⟩, rfl⟩ := hw
  obtain ⟨hr, hrname⟩ := Catalog.mem_releasesOf_iff.mp hr
  obtain ⟨_, hqname⟩ := Catalog.mem_releasesOf_iff.mp hq
  have hcontains : p.installed.containsRelease q.id = true :=
    Catalog.containsRelease_iff.mpr ⟨r, hr, by simp_all [Release.id]⟩
  rw [hcontains] at hnot
  simp at hnot

lemma length_candidates_le_versions (p : Problem) (s : Selection) (name : String) :
    (p.candidates s name).length ≤ (p.versions name).length := by
  rw [← List.length_map (fun n : Graph.Node => n.release.version)]
  refine (List.subperm_of_subset (p.nodup_versions_candidates s name) fun v hv => ?_).length_le
  obtain ⟨n, hn, rfl⟩ := List.mem_map.mp hv
  rw [versions, List.mem_dedup, List.map_append, List.mem_append]
  rcases List.mem_append.mp hn with hn | hn <;> obtain ⟨r, hr, rfl⟩ := List.mem_map.mp hn <;>
    have hr := List.mem_map_of_mem (f := Release.version)
      (List.mem_reverse.mp (List.mem_filter.mp hr).1)
  · exact .inl hr
  · exact .inr hr

/-! ### Changed choices -/

/-- A requirement that leads to a changed choice is dealt with by `reselect`. -/
lemma perform_of_change? {p : Problem} {s : Selection} {task : Task} {name : String}
    (h : p.change? s task = some name) :
    ∃ c requirer n, task = .require name c requirer ∧
      p.choose (s.note name c requirer) name ((s.note name c requirer).constraintsOn name) =
        some n ∧
      p.perform s task = p.reselect (s.note name c requirer) name c requirer := by
  obtain ⟨hside, ⟨m, hm, hname⟩, n, hn, hnname⟩ := change?_eq_some_iff.mp h
  cases task with
  | follow => simp [choice?] at hn
  | prune => simp [choice?] at hn
  | require name' c requirer =>
      obtain rfl : name' = name := (name_of_choice? hn).symm.trans hnname
      refine ⟨c, requirer, n, rfl, ?_⟩
      simp only [choice?] at hn
      split at hn
      · simp at hn
      · rename_i hunmet
        have hnamed : ((s.note name' c requirer).graph.nodesNamed name').isEmpty = false :=
          List.isEmpty_eq_false_iff_exists_mem.mpr
            ⟨m, Graph.mem_nodesNamed_iff.mpr ⟨by simpa using hm, hname⟩⟩
        simp only [hside, Bool.false_eq_true, if_false] at hn
        refine ⟨hn, ?_⟩
        simp only [perform, require, hunmet, hside, hnamed, Bool.false_eq_true, if_false]

/-- A package that has changed its choice as often as it has candidates is given up. -/
theorem perform_eq_unsettled {p : Problem} {s : Selection} {task : Task} {name : String}
    (h : p.change? s task = some name)
    (hmany : (p.candidates s name).length ≤ s.reselected.count name) :
    p.perform s task = .error (.unsettled name (s.reselected.count name + 1)) := by
  obtain ⟨c, requirer, n, rfl, hn, hperform⟩ := perform_of_change? h
  have hover : s.reselected.count name + 1 > (p.candidates s name).length := by omega
  rw [hperform, reselect, hn]
  simp only [Selection.reselected_note, candidates_note, if_pos hover]

/-- A choice that is changed is counted. -/
lemma Move.reselected_eq {p : Problem} {s t : Selection} {task : Task} {more : List Task}
    (h : p.Move s task t more) : t.reselected = (p.change? s task).toList ++ s.reselected := by
  have unchanged {name : String} {c : Constraint} {requirer : Requirer}
      (h : p.change? s (.require name c requirer) = none) (n : Graph.Node) :
      (p.select (s.note name c requirer) n).1.reselected =
        (p.change? s (.require name c requirer)).toList ++ s.reselected := by
    rw [h, reselected_select, Selection.reselected_note]
    rfl
  cases h with
  | @met name c requirer hmet =>
      have hnone : p.change? s (.require name c requirer) = none := by
        simp [change?, choice?, hmet]
      rw [hnone, Selection.reselected_note]
      rfl
  | beside hside =>
      refine unchanged (Option.eq_none_iff_forall_ne_some.mpr fun name' hname => ?_) _
      rw [(change?_eq_some_iff.mp hname).1] at hside
      simp at hside
  | first hno =>
      refine unchanged (Option.eq_none_iff_forall_ne_some.mpr fun name' hname => ?_) _
      obtain ⟨_, ⟨m, hm, hmname⟩, k, hk, hkname⟩ := change?_eq_some_iff.mp hname
      exact hno m hm (hmname.trans (hkname.symm.trans (name_of_choice? hk)))
  | @changed name c requirer n u hchange _ _ _ hu =>
      rw [hchange, reselected_select, hu]
      simp [Selection.deselect]
  | followed => rfl
  | left => rfl
  | pruned => rfl

/-! ### Choices left -/

/-- How many choices can still be made: all that are not chosen, and all others once more whenever
choices are taken back or dropped. -/
def choicesLeft (p : Problem) (s : Selection) (tasks : List Task) : Nat :=
  (2 * p.allowance s + tasks.countP Task.isPrune) * (p.releases.length + 1) + p.unselected s

/-- How many choices a resolution can make, read off its two catalogs: all releases once, and once
more whenever one of the choices is changed and whenever what it needed is dropped. -/
def choiceBound (p : Problem) : Nat :=
  2 * (p.releases.map fun r => p.releaseCount r.name).sum * (p.releases.length + 1) +
    p.releases.length

lemma choicesLeft_start (p : Problem) : p.choicesLeft {} [] = p.choiceBound := by
  have hunselected : p.unselected {} = p.releases.length := by
    rw [unselected, List.countP_eq_length]
    simp [Graph.contains, Keyed.contains]
  have hchanges : p.changes.length = (p.releases.map fun r => p.releaseCount r.name).sum := by
    simp [changes, List.length_flatMap]
  simp [choicesLeft, choiceBound, hunselected, allowance, hchanges]

lemma choicesLeft_congr {p : Problem} {s t : Selection} {tasks : List Task}
    (hn : t.graph.nodes = s.graph.nodes) (hr : t.reselected = s.reselected) :
    p.choicesLeft t tasks = p.choicesLeft s tasks := by
  simp only [choicesLeft, allowance, unselected, Graph.contains, hn, hr]

/-- A choice beside those that are made already. -/
lemma choicesLeft_select_lt {p : Problem} {s : Selection} {n : Graph.Node}
    (hn : n.release ∈ p.releases) (hs : s.graph.contains n.id = false) (tasks : List Task) :
    p.choicesLeft (p.select s n).1 ((p.select s n).2 ++ tasks) < p.choicesLeft s tasks := by
  have hallowance : p.allowance (p.select s n).1 = p.allowance s := by
    simp only [allowance, reselected_select]
  have hlt := unselected_lt hn hs (graph_select p s n)
  simp only [choicesLeft, hallowance, List.countP_append, countP_isPrune_select, Nat.zero_add]
  omega

/-- A changed choice and the drop that follows it together use up the allowance. -/
lemma choicesLeft_changed_lt {p : Problem} {s u : Selection} {n : Graph.Node}
    (hn : n.release ∈ p.releases) (hu : u.reselected = n.release.name :: s.reselected)
    (hfew : s.reselected.count n.release.name < p.releaseCount n.release.name)
    (tasks : List Task) :
    p.choicesLeft (p.select u n).1 ((p.select u n).2 ++ [.prune] ++ tasks) <
      p.choicesLeft s tasks := by
  have hlt : p.allowance (p.select u n).1 < p.allowance s :=
    allowance_lt hn ((reselected_select p u n).trans hu) hfew
  have hall := p.unselected_le (p.select u n).1
  have hbudget := Nat.mul_le_mul_right (p.releases.length + 1) (Nat.mul_le_mul_left 2 hlt)
  have hprune : [Task.prune].countP Task.isPrune = 1 := rfl
  simp only [choicesLeft, List.countP_append, countP_isPrune_select, hprune, Nat.zero_add,
    Nat.add_mul, Nat.one_mul, Nat.mul_add, Nat.mul_one, Nat.succ_eq_add_one] at hbudget ⊢
  omega

lemma choicesLeft_prune_le (p : Problem) (s : Selection) (tasks : List Task) :
    p.choicesLeft s.prune tasks ≤ p.choicesLeft s (.prune :: tasks) := by
  have hall := p.unselected_le s.prune
  have hallowance : p.allowance s.prune = p.allowance s := rfl
  simp only [choicesLeft, hallowance, List.countP_cons, Task.isPrune, if_true, Nat.add_mul,
    Nat.one_mul]
  omega

/-- Noting a requirement chooses nothing. -/
lemma choicesLeft_note (p : Problem) (s : Selection) (name : String) (c : Constraint)
    (requirer : Requirer) (tasks : List Task) :
    p.choicesLeft (s.note name c requirer) tasks =
      p.choicesLeft s (.require name c requirer :: tasks) := by
  rw [choicesLeft_congr (s.nodes_note name c requirer) (s.reselected_note name c requirer)]
  simp [choicesLeft, Task.isPrune]

/-- A choice for a requirement, of a release that is not chosen yet. -/
lemma choicesLeft_require_lt {p : Problem} {s : Selection} {n : Graph.Node}
    (hn : n.release ∈ p.releases) (hs : s.graph.contains n.id = false) (name : String)
    (c : Constraint) (requirer : Requirer) (tasks : List Task) :
    p.choicesLeft (p.select (s.note name c requirer) n).1
        ((p.select (s.note name c requirer) n).2 ++ tasks) <
      p.choicesLeft s (.require name c requirer :: tasks) := by
  rw [← choicesLeft_note]
  exact choicesLeft_select_lt hn ((s.contains_note name c requirer n.id).trans hs) tasks

/-- A choice leaves fewer choices, and nothing else makes them more. -/
theorem Move.choicesLeft_le {p : Problem} {s t : Selection} {task : Task}
    {more : List Task} (h : p.Move s task t more) (tasks : List Task) :
    (p.choice? s task).toList.length + p.choicesLeft t (more ++ tasks) ≤
      p.choicesLeft s (task :: tasks) := by
  have hone : (p.choice? s task).toList.length ≤ 1 := by cases p.choice? s task <;> simp
  cases h with
  | @met name c requirer hmet =>
      have hnone : p.choice? s (.require name c requirer) = none := by simp [choice?, hmet]
      simpa [hnone] using (p.choicesLeft_note s name c requirer tasks).le
  | @beside name c requirer n _ hunmet hn hadmits =>
      obtain ⟨hmem, hname⟩ := mem_releases_of_mem_candidates hn
      have hfresh := contains_eq_false_of_target? hunmet hname hadmits
      have hlt := choicesLeft_require_lt hmem hfresh name c requirer tasks
      omega
  | @first name c requirer n hno hn _ =>
      obtain ⟨hmem, hname⟩ := mem_releases_of_mem_candidates hn
      have hfresh : s.graph.contains n.id = false := by
        refine Bool.eq_false_iff.mpr fun hc => ?_
        obtain ⟨m, hm, hid⟩ := Graph.contains_iff.mp hc
        exact Graph.id_ne_of_name_ne hno hname m hm hid
      have hlt := choicesLeft_require_lt hmem hfresh name c requirer tasks
      omega
  | @changed name c requirer n u _ hfew hn _ hu =>
      obtain ⟨hmem, rfl⟩ := mem_releases_of_mem_candidates hn
      have hbound := p.length_candidates_le (s.note n.release.name c requirer) n.release.name
      have hlt := choicesLeft_changed_lt (u := u) hmem (by rw [hu, Selection.deselect])
        ((s.reselected_note n.release.name c requirer) ▸ hfew.trans_le hbound) tasks
      rw [choicesLeft_note] at hlt
      omega
  | followed => simp [choice?, choicesLeft, Task.isPrune]
  | left => simp [choice?, choicesLeft, Task.isPrune, allowance, unselected]
  | pruned => simpa [choice?] using p.choicesLeft_prune_le s tasks

/-! ### States of a resolution -/

/-- What a resolution has done so far. -/
structure Tally where
  /-- How many releases the caller asked for. -/
  asked : Nat := 0
  /-- How many tasks were performed. -/
  performed : Nat := 0
  /-- The chosen releases, the last one first. -/
  chosen : List Graph.Node := []
  /-- A package name for every choice that was changed. -/
  changed : List String := []

/-- The tally once one more task is performed. -/
def Tally.step (tally : Tally) (p : Problem) (s : Selection) (task : Task) : Tally where
  asked := tally.asked
  performed := tally.performed + 1
  chosen := (p.choice? s task).toList ++ tally.chosen
  changed := (p.change? s task).toList ++ tally.changed

/-- The states that a resolution passes through: the selections with the tasks that they owe. -/
inductive Underway (p : Problem) : Tally → Selection → List Task → Prop
  /-- Nothing is chosen at first. -/
  | start : p.Underway {} {} []
  /-- When nothing is left to do the caller may ask for something, in the place of installed
  releases. -/
  | asked {tally : Tally} {s : Selection} {name : String} {c : Constraint}
      {replaced : Keyed Release.id} :
      p.Underway tally s [] →
      (∀ r ∈ replaced.toList, r ∈ p.installed.releases) →
      p.Underway { tally with asked := tally.asked + 1 }
        { s with replaced, requests := s.requests ++ [⟨name, c⟩] } [.require name c .request]
  /-- The first task is performed. -/
  | performed {tally : Tally} {s t : Selection} {task : Task} {more rest : List Task} :
      p.Underway tally s (task :: rest) →
      p.perform s task = .ok (t, more) →
      p.Underway (tally.step p s task) t (more ++ rest)

namespace Underway

variable {p : Problem} {tally : Tally} {s : Selection} {tasks : List Task}

/-- The tasks can be performed in turn, and only installed releases are replaced. -/
lemma sound (h : p.Underway tally s tasks) :
    p.Sound s tasks ∧ ∀ r ∈ s.replaced.toList, r ∈ p.installed.releases := by
  induction h with
  | start => exact ⟨.empty p, by simp⟩
  | @asked tally s name c replaced _ hreplaced ih =>
      have hsound : p.Sound { s with replaced } [] := ih.1.congr
      exact ⟨hsound.ask name c, hreplaced⟩
  | performed _ hperformed ih =>
      exact ⟨ih.1.move (move_of_perform hperformed), (kept_perform hperformed).1 ▸ ih.2⟩

lemma standing (h : p.Underway tally s []) : p.Standing s :=
  ⟨h.sound.1, h.sound.2⟩

lemma changed_eq (h : p.Underway tally s tasks) : tally.changed = s.reselected := by
  induction h with
  | start => rfl
  | asked _ _ ih => exact ih
  | performed _ hperformed ih =>
      rw [(move_of_perform hperformed).reselected_eq, ← ih, Tally.step]

/-- A package changes its choice at most as often as it has versions. -/
theorem count_changed_le (h : p.Underway tally s tasks) (name : String) :
    tally.changed.count name ≤ (p.versions name).length := by
  induction h with
  | start => exact Nat.zero_le _
  | asked _ _ ih => exact ih
  | @performed tally s t task more rest hs hperformed ih =>
      rw [Tally.step, List.count_append]
      by_cases hchange : p.change? s task = some name
      · have hfew := Nat.lt_of_not_le fun hmany => by
          rw [perform_eq_unsettled hchange hmany] at hperformed
          simp at hperformed
        have hversions := p.length_candidates_le_versions s name
        rw [hchange, hs.changed_eq, Option.toList_some, List.count_singleton_self]
        omega
      · have hnone : (p.change? s task).toList.count name = 0 := by
          rw [List.count_eq_zero, Option.mem_toList]
          exact hchange
        omega

/-- The choices that were made and those that can be made are no more than at first. -/
theorem length_chosen_le (h : p.Underway tally s tasks) :
    tally.chosen.length + p.choicesLeft s tasks ≤ p.choiceBound := by
  induction h with
  | start => simp [choicesLeft_start]
  | asked _ _ ih => simpa [choicesLeft, allowance, unselected, Task.isPrune] using ih
  | @performed tally s t task more rest _ hperformed ih =>
      have hle := (move_of_perform hperformed).choicesLeft_le rest
      simp only [Tally.step, List.length_append]
      omega

/-- Each task leaves less to do, and each request adds one task. -/
theorem performed_le (h : p.Underway tally s tasks) :
    tally.performed + p.remaining s tasks ≤ p.remaining {} [] + tally.asked := by
  induction h with
  | start => simp
  | @asked tally s name c replaced _ _ ih =>
      have hone : p.remaining { s with replaced, requests := s.requests ++ [⟨name, c⟩] }
          [.require name c .request] = p.remaining s [] + 1 := by
        simp [remaining, allowance, unselected, Task.weight, Task.unfollowed, Task.isPrune]
      rw [hone]
      exact Nat.add_le_add_right ih 1
  | @performed tally s t task more rest _ hperformed ih =>
      have hlt : p.remaining t (more ++ rest) < p.remaining s (task :: rest) :=
        remaining_perform_lt hperformed
      simp only [Tally.step]
      omega

end Underway

/-! ### Settling -/

/-- A broken release is not replaced: it would leave if it were not chosen, and what a chosen one
needs is chosen. -/
lemma Standing.not_replaced_of_broken? {p : Problem} {s : Selection} {b : Broken}
    (h : p.Standing s) (hfollow : p.rules.follow = true) (hb : p.broken? s = some b) :
    s.replaced.contains b.dependent.id = false := by
  obtain ⟨hinstalled, hstays, hd, _, hnothing, _⟩ := h.broken?_eq_some hb
  by_contra hreplaced
  rw [Bool.not_eq_false] at hreplaced
  have hchosen : s.graph.contains b.dependent.id = true := by
    by_contra hnot
    rw [isLeaving_iff.mpr ⟨Bool.eq_false_iff.mpr hnot, .inl hreplaced⟩] at hstays
    simp at hstays
  obtain ⟨n, hn, hid⟩ := Graph.contains_iff.mp hchosen
  obtain rfl := (h.offered n hn).eq_of_id_eq (.installed hinstalled) hid
  obtain ⟨_, m, hm⟩ := h.exists_target hfollow hn hd
  simp [remains, hm] at hnothing

/-- The dependents that settling upgrades one after another, the one that it fails at included. -/
def cascades (p : Problem) (s : Selection) : List Release :=
  match _broken : p.broken? s with
  | none => []
  | some b =>
    if p.rules.cascade then
      match _cascaded : p.cascade s b with
      | .error _ => [b.dependent]
      | .ok t => b.dependent :: p.cascades t
    else []
termination_by p.unreplaced s
decreasing_by exact unreplaced_cascade_lt _broken _cascaded

lemma cascades_of_error {p : Problem} {s : Selection} {b : Broken} {e : PlanError}
    (hb : p.broken? s = some b) (hcascade : p.rules.cascade = true)
    (he : p.cascade s b = .error e) : p.cascades s = [b.dependent] := by
  rw [cascades, hb]
  simp only [hcascade, if_true]
  split <;> simp_all

lemma cascades_of_ok {p : Problem} {s t : Selection} {b : Broken} (hb : p.broken? s = some b)
    (hcascade : p.rules.cascade = true) (ht : p.cascade s b = .ok t) :
    p.cascades s = b.dependent :: p.cascades t := by
  rw [cascades, hb]
  simp only [hcascade, if_true]
  split <;> simp_all

lemma replaced_cascade {p : Problem} {s t : Selection} {b : Broken}
    (h : p.cascade s b = .ok t) : t.replaced = s.replaced.insert b.dependent := by
  obtain ⟨_, _, hpin⟩ := pin_of_cascade h
  exact replaced_pin hpin

/-- Settling upgrades installed releases only, and none of them twice. -/
theorem Standing.cascades {p : Problem} {s : Selection} (h : p.Standing s)
    (hfollow : p.rules.follow = true) :
    (p.cascades s).Nodup ∧ ∀ r ∈ p.cascades s, r ∈ p.installed.releases := by
  suffices hall : (p.cascades s).Nodup ∧ ∀ r ∈ p.cascades s,
      r ∈ p.installed.releases ∧ s.replaced.contains r.id = false from
    ⟨hall.1, fun r hr => (hall.2 r hr).1⟩
  fun_induction Problem.cascades p s with
  | case1 => simp
  | case2 s b hb _ _ _ =>
      simpa using ⟨mem_of_broken? hb, h.not_replaced_of_broken? hfollow hb⟩
  | case3 s b hb _ t ht ih =>
      obtain ⟨hnodup, hrest⟩ := ih (h.cascade hb ht)
      -- those that follow are not among the replaced ones of this round
      have hlater {r : Release} (hr : r ∈ p.cascades t) :
          s.replaced.contains r.id = false ∧ b.dependent.id ≠ r.id := by
        have hnot := (hrest r hr).2
        rw [replaced_cascade ht, Keyed.contains_insert] at hnot
        simpa using hnot
      refine ⟨List.nodup_cons.mpr ⟨fun hmem => (hlater hmem).2 rfl, hnodup⟩, fun r hr => ?_⟩
      rcases List.mem_cons.mp hr with rfl | hr
      · exact ⟨mem_of_broken? hb, h.not_replaced_of_broken? hfollow hb⟩
      · exact ⟨(hrest r hr).1, (hlater hr).1⟩
  | case4 => simp

lemma Standing.length_cascades_le {p : Problem} {s : Selection} (h : p.Standing s)
    (hfollow : p.rules.follow = true) :
    (p.cascades s).length ≤ p.installed.releases.length :=
  (List.subperm_of_subset (h.cascades hfollow).1 (h.cascades hfollow).2).length_le

end Problem

end PackagePlanner
