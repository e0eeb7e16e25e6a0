import PackagePlanner.Resolution.Measure

/-!
Carrying a requirement through to the end.

* `Problem.run` performs tasks until none is left, the newest first.
* `Problem.request` meets a requirement of the caller, and `Problem.pin` asks for one release,
  perhaps in the place of an installed one.
* A run neither adds requests nor replaces releases (`kept_run`).
-/

namespace PackagePlanner

namespace Problem

/-- Performs the tasks in turn, those that a task gives rise to before the others. -/
def run (p : Problem) (s : Selection) (tasks : List Task) : Except Conflict Selection :=
  match tasks with
  | [] => .ok s
  | task :: rest =>
    match _performed : p.perform s task with
    | .error conflict => .error conflict
    | .ok (t, more) => run p t (more ++ rest)
termination_by p.remaining s tasks
decreasing_by exact remaining_perform_lt _performed

/-- Meets a requirement of the caller. -/
def request (p : Problem) (s : Selection) (name : String) (c : Constraint) :
    Except Conflict Selection :=
  p.run { s with requests := s.requests ++ [⟨name, c⟩] } [.require name c .request]

/-- Asks for one release, in the place of an installed one if that is given. -/
def pin (p : Problem) (s : Selection) (wanted : Release) (old : Option Release) :
    Except Conflict Selection :=
  let replaced := match old with
    | some r => s.replaced.insert r
    | none => s.replaced
  p.request { s with replaced := replaced } wanted.name (.exact wanted.version)

/-! ### What a run keeps -/

theorem kept_require {p : Problem} {s t : Selection} {name : String} {c : Constraint}
    {requirer : Requirer} {more : List Task} (h : p.require s name c requirer = .ok (t, more)) :
    t.replaced = s.replaced ∧ t.requests = s.requests := by
  have select (u : Selection) (n : Graph.Node) :
      (p.select u n).1.replaced = u.replaced ∧ (p.select u n).1.requests = u.requests :=
    ⟨(select_eq rfl).2.2.1, (select_eq rfl).2.2.2.1⟩
  have selectFor {required : List Constraint}
      (h : p.selectFor s name c requirer required = .ok (t, more)) :
      t.replaced = s.replaced ∧ t.requests = s.requests := by
    unfold Problem.selectFor at h
    split at h
    · simp at h
    · rename_i n _
      have h := Except.ok.inj h
      have := select s n
      rw [h] at this
      exact this
  unfold require at h
  split at h
  · obtain ⟨rfl, _⟩ := Prod.mk.inj (Except.ok.inj h)
    exact ⟨rfl, rfl⟩
  · split at h
    · exact selectFor h
    · split at h
      · exact selectFor h
      · unfold reselect at h
        split at h
        · simp at h
        · simp only at h
          split at h
          · simp at h
          · obtain ⟨rfl, _⟩ := Prod.mk.inj (Except.ok.inj h)
            exact select _ _

theorem kept_perform {p : Problem} {s t : Selection} {task : Task} {more : List Task}
    (h : p.perform s task = .ok (t, more)) :
    t.replaced = s.replaced ∧ t.requests = s.requests := by
  match task with
  | .require name c requirer =>
    obtain ⟨_, _, hr, hq⟩ := nodes_note s name c requirer
    rw [← hr, ← hq]
    exact kept_require h
  | .follow id [] =>
    obtain ⟨rfl, _⟩ := Prod.mk.inj (Except.ok.inj h)
    exact ⟨rfl, rfl⟩
  | .follow id (d :: rest) =>
    simp only [perform] at h
    split at h <;> obtain ⟨rfl, _⟩ := Prod.mk.inj (Except.ok.inj h) <;> exact ⟨rfl, rfl⟩
  | .prune =>
    obtain ⟨rfl, _⟩ := Prod.mk.inj (Except.ok.inj h)
    exact ⟨rfl, rfl⟩

theorem kept_run {p : Problem} {s t : Selection} {tasks : List Task}
    (h : p.run s tasks = .ok t) : t.replaced = s.replaced ∧ t.requests = s.requests := by
  fun_induction run p s tasks with
  | case1 s =>
    obtain rfl := Except.ok.inj h
    exact ⟨rfl, rfl⟩
  | case2 => simp at h
  | case3 s task rest u more performed ih =>
    obtain ⟨hr, hq⟩ := kept_perform performed
    obtain ⟨hr', hq'⟩ := ih h
    exact ⟨hr'.trans hr, hq'.trans hq⟩

theorem replaced_pin {p : Problem} {s t : Selection} {wanted old : Release}
    (h : p.pin s wanted (some old) = .ok t) : t.replaced = s.replaced.insert old :=
  (kept_run h).1

end Problem

end PackagePlanner
