import PackagePlanner.Proofs.Constraint

/-!
Constraints that one version satisfies together.

* `Constraint.admits_iff`: a version is accepted if it lies between the bounds; these are in order
  (`Constraint.le_of_bounds`).
* `Constraint.compatible_iff`: two constraints are compatible if each lower bound lies before each
  upper bound, those of the other constraint included.
* `Constraint.newestLower` is the newest lower bound of some constraints, or `0.0.0`. If any two of
  them are compatible all of them accept it, so that it is enough to look at pairs
  (`pairwiseCompatible_iff`).
-/

namespace PackagePlanner

/-- No version is older than `0.0.0`. -/
lemma Version.zero_le (v : Version) : ⟨0, 0, 0⟩ ≤ v := by
  have hnumber (n : UInt64) : (compare 0 n).isLE = true := Std.isLE_compare.mpr UInt64.zero_le
  have hthen {o o' : Ordering} (h : o.isLE = true) (h' : o'.isLE = true) :
      (o.then o').isLE = true := by
    cases o <;> simp_all
  exact hthen (hnumber v.major) (hthen (hnumber v.minor) (hnumber v.revision))

namespace Constraint

variable {a b c : Constraint} {cs : List Constraint} {v : Version}

/-! ### Bounds -/

/-- A version is accepted if it lies between the bounds. -/
lemma admits_iff : c.admits v = true ↔ (∀ l ∈ c.lower?, l ≤ v) ∧ ∀ u ∈ c.upper?, v ≤ u := by
  have hlower : c.lower?.any (fun l => compare v l == .lt) = false ↔ ∀ l ∈ c.lower?, l ≤ v := by
    cases c.lower? <;> simp [beq_eq_false_iff_ne, compare_lt_iff_lt]
  have hupper : c.upper?.any (fun u => compare v u == .gt) = false ↔ ∀ u ∈ c.upper?, v ≤ u := by
    cases c.upper? <;> simp [beq_eq_false_iff_ne, compare_gt_iff_gt]
  rw [← hlower, ← hupper, admits, position]
  cases c.lower?.any fun l => compare v l == .lt with
  | true => simp
  | false => cases c.upper?.any fun u => compare v u == .gt <;> simp

/-- The bounds of a constraint are in order. -/
lemma le_of_bounds {l u : Version} (hl : l ∈ c.lower?) (hu : u ∈ c.upper?) : l ≤ u := by
  cases c with
  | any | atLeast | atMost => simp [lower?, upper?] at hl hu
  | exact w =>
      obtain rfl := Option.some.inj hl
      exact (Option.some.inj hu).le
  | range lower upper ordered =>
      obtain rfl := Option.some.inj hl
      obtain rfl := Option.some.inj hu
      exact ordered

/-- A version lies behind the later of two bounds if it lies behind both. -/
lemma forall_mem_laterBound_iff {x y : Option Version} :
    (∀ l ∈ laterBound x y, l ≤ v) ↔ (∀ l ∈ x, l ≤ v) ∧ ∀ l ∈ y, l ≤ v := by
  match x, y with
  | none, y => simp [laterBound]
  | some l, none => simp [laterBound]
  | some l, some m =>
      have hmax : (if (compare l m).isLE then m else l) = max l m := by
        rw [max_def]
        rfl
      simp [laterBound, hmax]

/-- A version lies before the earlier of two bounds if it lies before both. -/
lemma forall_mem_earlierBound_iff {x y : Option Version} :
    (∀ u ∈ earlierBound x y, v ≤ u) ↔ (∀ u ∈ x, v ≤ u) ∧ ∀ u ∈ y, v ≤ u := by
  match x, y with
  | none, y => simp [earlierBound]
  | some l, none => simp [earlierBound]
  | some l, some m =>
      have hmin : (if (compare l m).isLE then l else m) = min l m := by
        rw [min_def]
        rfl
      simp [earlierBound, hmin]

/-! ### Two constraints -/

/-- Two constraints are compatible if the lower bounds of each lie before the upper bounds of the
other. -/
lemma compatible_iff : a.compatible b = true ↔
    (∀ l ∈ a.lower?, ∀ u ∈ b.upper?, l ≤ u) ∧ ∀ l ∈ b.lower?, ∀ u ∈ a.upper?, l ≤ u := by
  have hbounds : a.compatible b = true ↔ ∀ l ∈ laterBound a.lower? b.lower?,
      ∀ u ∈ earlierBound a.upper? b.upper?, l ≤ u := by
    rw [compatible]
    cases laterBound a.lower? b.lower? with
    | none => simp
    | some l =>
        cases earlierBound a.upper? b.upper? with
        | none => simp
        | some u => simp [Std.isLE_compare]
  have hlater (x : Option Version) : (∀ l ∈ laterBound a.lower? b.lower?, ∀ u ∈ x, l ≤ u) ↔
      (∀ l ∈ a.lower?, ∀ u ∈ x, l ≤ u) ∧ ∀ l ∈ b.lower?, ∀ u ∈ x, l ≤ u := by
    cases x with
    | none => simp
    | some u => simpa using forall_mem_laterBound_iff (v := u)
  simp only [hbounds, forall_mem_earlierBound_iff, forall_and, hlater]
  constructor
  · rintro ⟨⟨_, hba⟩, hab, _⟩
    exact ⟨hab, hba⟩
  · rintro ⟨hab, hba⟩
    exact ⟨⟨fun _ hl _ hu => le_of_bounds hl hu, hba⟩, hab, fun _ hl _ hu => le_of_bounds hl hu⟩

lemma compatible_symm : a.compatible b = true ↔ b.compatible a = true := by
  rw [compatible_iff, compatible_iff, and_comm]

/-- A common version makes two constraints compatible. -/
lemma compatible_of_admits (ha : a.admits v = true) (hb : b.admits v = true) :
    a.compatible b = true := by
  obtain ⟨hla, hua⟩ := admits_iff.mp ha
  obtain ⟨hlb, hub⟩ := admits_iff.mp hb
  exact compatible_iff.mpr ⟨fun l hl u hu => (hla l hl).trans (hub u hu),
    fun l hl u hu => (hlb l hl).trans (hua u hu)⟩

/-! ### Any number of constraints -/

/-- The newest lower bound of some constraints, or the oldest version if there is none. -/
def newestLower (cs : List Constraint) : Version :=
  (cs.filterMap lower?).foldr max ⟨0, 0, 0⟩

/-- The newest lower bound comes before what all lower bounds come before. -/
lemma newestLower_le_iff : newestLower cs ≤ v ↔ ∀ c ∈ cs, ∀ l ∈ c.lower?, l ≤ v := by
  induction cs with
  | nil => simpa [newestLower] using v.zero_le
  | cons c rest ih =>
      rw [List.forall_mem_cons, ← ih, newestLower, List.filterMap_cons]
      cases c.lower? with
      | none => simp [newestLower]
      | some l => simp [newestLower]

/-- A constraint is compatible with itself, for it accepts its own bounds. -/
lemma compatible_self (c : Constraint) : c.compatible c = true :=
  compatible_iff.mpr ⟨fun _ hl _ hu => le_of_bounds hl hu, fun _ hl _ hu => le_of_bounds hl hu⟩

/-- In a list, two constraints are compatible whichever of them comes first. -/
lemma pairwiseCompatible_iff_forall : pairwiseCompatible cs = true ↔
    ∀ a ∈ cs, ∀ b ∈ cs, a.compatible b = true := by
  have hpairs : pairwiseCompatible cs = true ↔ cs.Pairwise fun a b => a.compatible b = true := by
    induction cs with
    | nil => simp [pairwiseCompatible]
    | cons c rest ih => simp [pairwiseCompatible, ih]
  rw [hpairs]
  refine ⟨fun h a ha b hb => ?_, List.pairwise_of_forall_mem_list⟩
  have hflip : cs.Pairwise (flip fun a b => a.compatible b = true) := h.imp compatible_symm.mp
  exact h.forall_of_forall_of_flip (fun c _ => c.compatible_self) hflip ha hb

/-- If any two of some constraints are compatible, all of them accept the newest lower bound. -/
lemma admits_newestLower (h : ∀ a ∈ cs, ∀ b ∈ cs, a.compatible b = true) (hc : c ∈ cs) :
    c.admits (newestLower cs) = true := by
  refine admits_iff.mpr ⟨newestLower_le_iff.mp le_rfl c hc, fun u hu => ?_⟩
  exact newestLower_le_iff.mpr fun a ha l hl => (compatible_iff.mp (h a ha c hc)).1 l hl u hu

/-- Some constraints are compatible two by two if and only if they accept a common version. -/
theorem pairwiseCompatible_iff :
    pairwiseCompatible cs = true ↔ ∃ v, ∀ c ∈ cs, c.admits v = true := by
  rw [pairwiseCompatible_iff_forall]
  constructor
  · exact fun h => ⟨newestLower cs, fun c hc => admits_newestLower h hc⟩
  · rintro ⟨v, hv⟩ a ha b hb
    exact compatible_of_admits (hv a ha) (hv b hb)

lemma compatible_iff_exists :
    a.compatible b = true ↔ ∃ v, a.admits v = true ∧ b.admits v = true := by
  simpa [pairwiseCompatible] using @pairwiseCompatible_iff [a, b]

end Constraint

end PackagePlanner
