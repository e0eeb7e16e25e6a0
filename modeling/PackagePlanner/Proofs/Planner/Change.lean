import PackagePlanner.Planner
import PackagePlanner.Proofs.Catalog.Newest
import PackagePlanner.Proofs.Resolution.Outcome

/-!
Installs and upgrades as changes of one kind.

* `Change` is a request to install a package or to upgrade some; `Planner.planWith` plans it with or
  without the dependencies, and `Planner.selectionWith` is what it chooses. `Planner.plan` and
  `Planner.selection` are these with the dependencies.
* `planWith_eq_ok_iff`: a plan carries out what was chosen, and `settled_of_selectionWith`: what was
  chosen is settled.
-/

namespace PackagePlanner

/-- A request to install a version of a package, or to upgrade some packages. -/
inductive Change where
  | install (name text : String)
  | upgrade (names : List String) (text : String)
deriving DecidableEq

namespace Planner

/-- What a change starts from, with or without the dependencies. -/
def problemWith (p : Planner) (follow : Bool) : Change → Problem
  | .install _ _ => p.installProblem follow
  | .upgrade _ _ => p.upgradeProblem follow

/-- What is chosen for a change, with or without the dependencies. -/
def selectionWith (p : Planner) (follow : Bool) : Change → Except PlanError Selection
  | .install name text => p.installSelection name text follow
  | .upgrade names text => p.upgradeSelection names text follow

/-- The plan of a change, with or without the dependencies. -/
def planWith (p : Planner) (follow : Bool) : Change → Except PlanError Plan
  | .install name text => p.install name text follow
  | .upgrade names text => p.upgrade names text follow

/-- What a change starts from when dependencies are followed. -/
def problem (p : Planner) : Change → Problem := p.problemWith true

/-- What is chosen for a change when dependencies are followed. -/
def selection (p : Planner) : Change → Except PlanError Selection := p.selectionWith true

/-- The plan of a change when dependencies are followed. -/
def plan (p : Planner) : Change → Except PlanError Plan := p.planWith true

section Map

variable {ε α β : Type} {x : Except ε α} {f : α → β}

lemma map_eq_ok_iff {b : β} : x.map f = .ok b ↔ ∃ a, x = .ok a ∧ f a = b := by
  cases x <;> simp [Except.map]

lemma map_eq_error_iff {e : ε} : x.map f = .error e ↔ x = .error e := by
  cases x <;> simp [Except.map]

end Map

variable {p : Planner} {change : Change} {follow : Bool}

@[simp] lemma available_problemWith : (p.problemWith follow change).available = p.available := by
  cases change <;> rfl

@[simp] lemma installed_problemWith : (p.problemWith follow change).installed = p.installed := by
  cases change <;> rfl

@[simp] lemma sideBySide_problemWith :
    (p.problemWith follow change).rules.sideBySide = p.sideBySide := by
  cases change <;> rfl

@[simp] lemma follow_problemWith : (p.problemWith follow change).rules.follow = follow := by
  cases change <;> rfl

lemma planWith_eq : p.planWith follow change =
    (p.selectionWith follow change).map (p.problemWith follow change).planOf := by
  cases change <;> rfl

lemma planWith_eq_ok_iff {plan : Plan} :
    p.planWith follow change = .ok plan ↔
      ∃ s, p.selectionWith follow change = .ok s ∧
        (p.problemWith follow change).planOf s = plan := by
  rw [planWith_eq, map_eq_ok_iff]

lemma planWith_eq_error_iff {e : PlanError} :
    p.planWith follow change = .error e ↔ p.selectionWith follow change = .error e := by
  rw [planWith_eq, map_eq_error_iff]

/-! ### What is chosen -/

/-- An install ends with what its request led to, unless somebody is broken. -/
lemma finish_eq_ok_iff {p : Problem} {s t : Selection} (hcascade : p.rules.cascade = false) :
    p.finish s = .ok t ↔ s = t ∧ (p.rules.follow = true → p.broken? s = none) := by
  rw [Problem.finish]
  split
  · rename_i hfollow
    rw [Problem.settle]
    split <;> simp_all
  · simp_all

/-- An install ends with what its request for an available package led to. -/
lemma request_of_installSelection {name text : String} {s : Selection}
    (h : p.installSelection name text follow = .ok s) :
    ∃ c, Constraint.parse text = .ok c ∧ p.available.containsPackage name = true ∧
      (p.installProblem follow).request {} name c = .ok s ∧
        (p.installProblem follow).finish s = .ok s := by
  unfold installSelection at h
  split at h
  · simp at h
  · rename_i package hpackage
    split at h
    · simp at h
    · rename_i c hc
      split at h
      · simp at h
      · split at h
        · simp at h
        · rename_i t ht
          obtain ⟨rfl, _⟩ := (finish_eq_ok_iff rfl).mp h
          exact ⟨c, Problem.mapError_eq_ok_iff.mp hc,
            Option.isSome_iff_exists.mpr ⟨package, hpackage⟩, ht, h⟩

/-- An install of an available package chooses for its request alone, and replaces nothing. -/
lemma installSelection_eq_ok {name text : String} {s : Selection}
    (h : p.installSelection name text follow = .ok s) :
    ∃ c, Constraint.parse text = .ok c ∧ s.requests = [⟨name, c⟩] ∧
      (p.installProblem follow).Settled s ∧ s.replaced = .empty ∧
        p.available.containsPackage name = true := by
  obtain ⟨c, hc, havailable, hrequest, hfinish⟩ := request_of_installSelection h
  obtain ⟨hreplaced, hrequests⟩ := Problem.kept_run hrequest
  exact ⟨c, hc, hrequests, ((Problem.Standing.empty _).request hrequest).finish hfinish, hreplaced,
    havailable⟩

/-- An install looks for a version that will do in both catalogs. -/
lemma not_unknown_iff {package : Package} {name : String} {c : Constraint}
    (h : p.available.package? name = some package) :
    ((package.find? c).isNone && (p.installed.find? name c).isNone) = false ↔
      p.available.Meets ⟨name, c⟩ ∨ p.installed.Meets ⟨name, c⟩ := by
  have hfind : p.available.find? name c = package.find? c := by
    rw [Catalog.find?, h, Option.bind_some]
  rw [← Catalog.isSome_find?_iff, ← Catalog.isSome_find?_iff, hfind, Bool.and_eq_false_iff,
    Option.isNone_eq_false_iff, Option.isNone_eq_false_iff]

/-- An install goes on from what its request leads to, if some version will do. -/
lemma installSelection_eq {name text : String} {c : Constraint} {s : Selection}
    (havailable : p.available.containsPackage name = true) (hc : Constraint.parse text = .ok c)
    (hmet : p.available.Meets ⟨name, c⟩ ∨ p.installed.Meets ⟨name, c⟩)
    (hrequest : (p.installProblem follow).request {} name c = .ok s) :
    p.installSelection name text follow = (p.installProblem follow).finish s := by
  obtain ⟨package, hpackage⟩ := Option.isSome_iff_exists.mp havailable
  have hconstraint : constraint text = .ok c := by
    rw [constraint, hc]
    rfl
  have hknown := (not_unknown_iff hpackage).mpr hmet
  simp only [installSelection, hpackage, hconstraint, hknown, hrequest, Bool.false_eq_true,
    if_false]

/-- If an install runs into a conflict, its request may be met by some version. -/
lemma installSelection_eq_error {name text : String} {conflict : Conflict}
    (h : p.installSelection name text follow = .error (.resolution conflict)) :
    ∃ c, Constraint.parse text = .ok c ∧
      (p.available.Meets ⟨name, c⟩ ∨ p.installed.Meets ⟨name, c⟩) ∧
        ((p.installProblem follow).request {} name c = .error conflict ∨
          ∃ s, (p.installProblem follow).request {} name c = .ok s ∧
            (p.installProblem follow).finish s = .error (.resolution conflict)) := by
  unfold installSelection at h
  split at h
  · simp at h
  · rename_i package hpackage
    split at h
    · rename_i e hc
      obtain rfl := Except.error.inj h
      cases hparse : Constraint.parse text <;> simp [constraint, hparse, Except.mapError] at hc
    · rename_i c hc
      refine ⟨c, Problem.mapError_eq_ok_iff.mp hc, ?_⟩
      split at h
      · simp at h
      · rename_i hknown
        refine ⟨(not_unknown_iff hpackage).mp (Bool.eq_false_iff.mpr hknown), ?_⟩
        split at h
        · rename_i e hrequest
          obtain rfl := PlanError.resolution.inj (Except.error.inj h)
          exact .inl hrequest
        · rename_i s hrequest
          exact .inr ⟨s, hrequest, h⟩

lemma newestInstalled_cons {name : String} {rest : List String} {current : List Release}
    (h : p.newestInstalled (name :: rest) = .ok current) :
    ∃ r others, (p.installed.package? name).bind Package.newest? = some r ∧
      p.newestInstalled rest = .ok others ∧ current = r :: others := by
  rw [newestInstalled, List.mapM_cons] at h
  cases hfound : (p.installed.package? name).bind Package.newest? with
  | none => simp [hfound, bind, Except.bind] at h
  | some r =>
      cases hrest : p.newestInstalled rest with
      | error e =>
          rw [newestInstalled] at hrest
          simp [hfound, hrest, bind, Except.bind] at h
      | ok others =>
          rw [newestInstalled] at hrest
          simp only [hfound, hrest, bind, Except.bind, pure, Except.pure] at h
          exact ⟨r, others, rfl, rfl, (Except.ok.inj h).symm⟩

/-- Each package has a newest installed release. -/
lemma isNewest_of_newestInstalled {names : List String} {current : List Release}
    (h : p.newestInstalled names = .ok current) :
    current.length = names.length ∧
      (∀ r ∈ current, ∃ name ∈ names, p.installed.IsNewest name r) ∧
        ∀ name ∈ names, ∃ r ∈ current, p.installed.IsNewest name r := by
  induction names generalizing current with
  | nil =>
      obtain rfl := Except.ok.inj h
      simp
  | cons name rest ih =>
      obtain ⟨r, others, hr, hrest, rfl⟩ := newestInstalled_cons h
      obtain ⟨hlength, hothers, hnames⟩ := ih hrest
      have hnewest := Catalog.isNewest_of_newest? hr
      refine ⟨by simp [hlength],
        List.forall_mem_cons.mpr ⟨⟨name, List.mem_cons_self, hnewest⟩, fun q hq => ?_⟩,
        List.forall_mem_cons.mpr ⟨⟨r, List.mem_cons_self, hnewest⟩, fun other hother => ?_⟩⟩
      · obtain ⟨other, hother, hqnewest⟩ := hothers q hq
        exact ⟨other, List.mem_cons_of_mem name hother, hqnewest⟩
      · obtain ⟨q, hq, hqnewest⟩ := hnames other hother
        exact ⟨q, List.mem_cons_of_mem r hq, hqnewest⟩

lemma mem_installed_of_newestInstalled {names : List String} {current : List Release}
    (h : p.newestInstalled names = .ok current) :
    current.length = names.length ∧ ∀ r ∈ current, r ∈ p.installed.releases := by
  obtain ⟨hlength, hcurrent, _⟩ := isNewest_of_newestInstalled h
  refine ⟨hlength, fun r hr => ?_⟩
  obtain ⟨_, _, hnewest⟩ := hcurrent r hr
  exact hnewest.1

lemma standing_pinUpgrades {c : Constraint} {s t : Selection} {current : List Release}
    (hs : (p.upgradeProblem follow).Standing s)
    (hcurrent : ∀ r ∈ current, r ∈ p.installed.releases)
    (h : p.pinUpgrades follow c s current = .ok t) : (p.upgradeProblem follow).Standing t := by
  induction current generalizing s with
  | nil =>
      obtain rfl := Except.ok.inj h
      exact hs
  | cons r rest ih =>
      have hrest : ∀ q ∈ rest, q ∈ p.installed.releases :=
        fun q hq => hcurrent q (List.mem_cons_of_mem r hq)
      rw [pinUpgrades] at h
      split at h
      · exact ih hs hrest h
      · split at h
        · simp at h
        · rename_i hpin
          exact ih (hs.pin (hcurrent r List.mem_cons_self) hpin) hrest h

/-- An upgrade ends with what asking for the upgrades of the newest installed releases led to. -/
lemma pins_of_upgradeSelection {names : List String} {text : String} {s : Selection}
    (h : p.upgradeSelection names text follow = .ok s) :
    ∃ c current t, Constraint.parse text = .ok c ∧ p.newestInstalled names = .ok current ∧
      p.pinUpgrades follow c {} current = .ok t ∧
        (p.upgradeProblem follow).finish t = .ok s := by
  unfold upgradeSelection at h
  split at h
  · simp at h
  · rename_i c hc
    split at h
    · simp at h
    · rename_i current hcurrent
      split at h
      · simp at h
      · rename_i t ht
        exact ⟨c, current, t, Problem.mapError_eq_ok_iff.mp hc, hcurrent, ht, h⟩

lemma settled_upgradeSelection {names : List String} {text : String} {s : Selection}
    (h : p.upgradeSelection names text follow = .ok s) :
    (p.upgradeProblem follow).Settled s := by
  obtain ⟨_, _, _, _, hcurrent, hpins, hfinish⟩ := pins_of_upgradeSelection h
  exact (standing_pinUpgrades (.empty _) (mem_installed_of_newestInstalled hcurrent).2 hpins).finish
    hfinish

/-- What is chosen for a change is settled. -/
theorem settled_of_selectionWith {s : Selection} (h : p.selectionWith follow change = .ok s) :
    (p.problemWith follow change).Settled s := by
  cases change with
  | install name text =>
      obtain ⟨_, _, _, hsettled, _⟩ := installSelection_eq_ok h
      exact hsettled
  | upgrade names text => exact settled_upgradeSelection h

end Planner

end PackagePlanner
