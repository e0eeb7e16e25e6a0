import PackagePlanner.Proofs.Catalog.Lookup
import PackagePlanner.Proofs.Catalog.Order

/-!
Catalogs as tables in which the last entry wins.

* `Catalog.Write` puts a release under its name or takes out what is there; inserting a release is
  one write, and a plan is a list of them (`apply_eq`).
* `release?_foldl_write`: after some writes there is under a name what the last write of it left,
  and without any what was there before. `keys_foldl_write`: the names of packages stay in their
  order, and new ones follow in the order in which something was first put there.
* `tabulates_build`: hence a catalog that is made by insertions and plans holds what was put last
  under each name unless it was taken out since, and its packages answer accordingly.
* `carriesOut_apply`: hence also what a plan makes of any catalog, whatever the plan lists.
-/

namespace PackagePlanner

namespace Catalog

/-! ### One release put or taken out -/

/-- A change under one name: a release is put there, or what is there is taken out. -/
inductive Write where
  | put (r : Release)
  | take (id : ReleaseId)
deriving DecidableEq

/-- The name under which something changes. -/
def Write.id : Write → ReleaseId
  | .put r => r.id
  | .take id => id

/-- What is there afterwards. -/
def Write.content? : Write → Option Release
  | .put r => some r
  | .take _ => none

/-- The catalog after a change under one name. -/
def write (c : Catalog) : Write → Catalog
  | .put r => c.insert r
  | .take id => c.erase id

/-- An added release is found under its name, and the others as before. -/
lemma release?_insert (c : Catalog) (r : Release) (id : ReleaseId) :
    (c.insert r).release? id = if r.id = id then some r else c.release? id := by
  ext q
  rw [release?_eq_some_iff, mem_releases_insert_iff]
  split
  · rename_i hid
    rw [Option.some.injEq]
    constructor
    · rintro ⟨rfl | ⟨_, hne⟩, hq⟩
      · rfl
      · exact absurd (hq.trans hid.symm) hne
    · rintro rfl
      exact ⟨.inl rfl, hid⟩
  · rename_i hid
    rw [release?_eq_some_iff]
    constructor
    · rintro ⟨rfl | ⟨hq, _⟩, hqid⟩
      · exact absurd hqid hid
      · exact ⟨hq, hqid⟩
    · rintro ⟨hq, rfl⟩
      exact ⟨.inr ⟨hq, Ne.symm hid⟩, rfl⟩

/-- What is taken out is not found, and the others as before. -/
lemma release?_erase (c : Catalog) (gone id : ReleaseId) :
    (c.erase gone).release? id = if gone = id then none else c.release? id := by
  ext q
  rw [release?_eq_some_iff, mem_releases_erase_iff]
  split
  · rename_i hid
    simp only [reduceCtorEq, iff_false, not_and]
    exact fun hq hqid => hq.2 (hqid.trans hid.symm)
  · rename_i hid
    rw [release?_eq_some_iff]
    exact and_congr_left fun hqid => and_iff_left fun hq => hid (hq.symm.trans hqid)

/-- A write decides what is under its name, and leaves the others. -/
lemma release?_write (c : Catalog) (w : Write) (id : ReleaseId) :
    (c.write w).release? id = if w.id = id then w.content? else c.release? id := by
  cases w with
  | put r => exact release?_insert c r id
  | take gone => exact release?_erase c gone id

/-! ### Any number of writes -/

/-- The last write under a name. -/
def lastWrite (ws : List Write) (id : ReleaseId) : Option Write :=
  ws.reverse.find? fun w => w.id = id

lemma lastWrite_append (us ws : List Write) (id : ReleaseId) :
    lastWrite (us ++ ws) id = (lastWrite ws id).or (lastWrite us id) := by
  rw [lastWrite, List.reverse_append, List.find?_append, lastWrite, lastWrite]

lemma lastWrite_concat (ws : List Write) (w : Write) (id : ReleaseId) :
    lastWrite (ws ++ [w]) id = if w.id = id then some w else lastWrite ws id := by
  rw [lastWrite_append, lastWrite, List.reverse_singleton, List.find?_singleton]
  by_cases hid : w.id = id <;> simp [hid]

/-- Where each release makes one write under its name, the last release of a name makes the last
write. -/
lemma lastWrite_map {f : Release → Write} (hf : ∀ r, (f r).id = r.id) (rs : List Release)
    (id : ReleaseId) : lastWrite (rs.map f) id = (rs.reverse.find? fun r => r.id = id).map f := by
  rw [lastWrite, ← List.map_reverse, List.find?_map]
  congr 2
  funext r
  simp [hf r]

/-- The last write under a name decides what is there. -/
theorem release?_foldl_write (c : Catalog) (ws : List Write) (id : ReleaseId) :
    (ws.foldl write c).release? id =
      match lastWrite ws id with
      | some w => w.content?
      | none => c.release? id := by
  induction ws using List.reverseRecOn with
  | nil => rfl
  | append_singleton ws w ih =>
      rw [List.foldl_append, List.foldl_cons, List.foldl_nil, release?_write, lastWrite_concat, ih]
      split <;> rfl

/-- The names of packages for which a release was put, in the order of the first one. -/
def namesPut (ws : List Write) : List String :=
  ((ws.filterMap Write.content?).map Release.name).eraseDups

/-- Names stay in their order, and new ones follow. -/
theorem keys_foldl_write (c : Catalog) (ws : List Write) :
    (ws.foldl write c).packages.keys =
      c.packages.keys ++ (namesPut ws).filter fun name => name ∉ c.packages.keys := by
  induction ws using List.reverseRecOn with
  | nil => simp [namesPut]
  | append_singleton ws w ih =>
      rw [List.foldl_append, List.foldl_cons, List.foldl_nil]
      cases w with
      | put r =>
          have hnames : namesPut (ws ++ [.put r]) =
              if r.name ∈ namesPut ws then namesPut ws else namesPut ws ++ [r.name] := by
            simp only [namesPut, List.filterMap_append, List.map_append, List.mem_eraseDups]
            exact eraseDups_concat _ r.name
          rw [write, keys_insert, ih, hnames]
          by_cases hold : r.name ∈ c.packages.keys <;> by_cases hput : r.name ∈ namesPut ws <;>
            simp [hold, hput]
      | take id =>
          have hnames : namesPut (ws ++ [.take id]) = namesPut ws := by
            rw [namesPut, List.filterMap_append, List.filterMap_cons_none rfl, List.filterMap_nil,
              List.append_nil, namesPut]
          rw [write, keys_erase, ih, hnames]

lemma names_eq_filter_containsPackage (c : Catalog) :
    c.names = c.packages.keys.filter c.containsPackage := by
  rw [names_eq_filter_keys]
  refine List.filter_congr fun name _ => ?_
  rw [Bool.eq_iff_iff, containsPackage_iff, Bool.not_eq_true', List.isEmpty_eq_false_iff_exists_mem]
  simp only [mem_releasesOf_iff]

lemma kind_foldl_write (c : Catalog) (ws : List Write) : (ws.foldl write c).kind = c.kind := by
  induction ws generalizing c with
  | nil => rfl
  | cons w rest ih =>
      rw [List.foldl_cons, ih]
      cases w with
      | put r => exact kind_insert c r
      | take id => exact kind_erase c id

lemma containsPackage_iff_release? {c : Catalog} {name : String} :
    c.containsPackage name = true ↔ ∃ v, (c.release? ⟨name, v⟩).isSome = true := by
  simp only [Option.isSome_iff_exists, release?_eq_some_iff, containsPackage_iff]
  constructor
  · rintro ⟨r, hr, rfl⟩
    exact ⟨r.version, r, hr, rfl⟩
  · rintro ⟨v, r, hr, hid⟩
    exact ⟨r, hr, congrArg ReleaseId.name hid⟩

/-! ### Insertions and plans -/

/-- A change of a catalog as a whole. -/
inductive Edit where
  | insert (r : Release)
  | apply (plan : Plan)
deriving DecidableEq

/-- The catalog after a change. -/
def edit (c : Catalog) : Edit → Catalog
  | .insert r => c.insert r
  | .apply plan => c.apply plan

/-- What becomes of a catalog without packages by some changes. -/
def build (kind : CatalogKind) (edits : List Edit) : Catalog :=
  edits.foldl edit (empty kind)

/-- A plan takes out what it removes, and then puts what it adds. -/
def planWrites (plan : Plan) : List Write :=
  plan.removed.map (fun r => .take r.id) ++ plan.added.map .put

/-- The writes of a change. -/
def Edit.writes : Edit → List Write
  | .insert r => [.put r]
  | .apply plan => planWrites plan

lemma apply_eq (c : Catalog) (plan : Plan) : c.apply plan = (planWrites plan).foldl write c := by
  rw [apply, planWrites, List.foldl_append, List.foldl_map, List.foldl_map]
  rfl

lemma edit_eq (c : Catalog) (change : Edit) : c.edit change = change.writes.foldl write c := by
  cases change with
  | insert r => rfl
  | apply plan => exact apply_eq c plan

lemma build_eq (kind : CatalogKind) (edits : List Edit) :
    build kind edits = (edits.flatMap Edit.writes).foldl write (empty kind) := by
  rw [build, List.foldl_flatMap]
  congr 1
  funext c change
  exact edit_eq c change

/-- What is left under a name by some writes: what was put there last, unless it was taken out
since. -/
def left (ws : List Write) (id : ReleaseId) : Option Release :=
  (lastWrite ws id).bind Write.content?

/-- A catalog holds what some writes left, and nothing else. -/
structure Tabulates (ws : List Write) (c : Catalog) : Prop where
  /-- What is left under a name is found under it. -/
  release? : ∀ id, c.release? id = left ws id
  /-- A package holds what is left of its name. -/
  holds : ∀ p ∈ c.packages.toList, ∀ r,
    r ∈ p.releases.toList ↔ r.name = p.name ∧ left ws r.id = some r
  /-- A package is shown if something is left of its name. -/
  package? : ∀ name p, c.package? name = some p ↔
    p ∈ c.packages.toList ∧ p.name = name ∧ ∃ v, (left ws ⟨name, v⟩).isSome = true
  /-- The packages that are shown come in the order in which their names were first put. -/
  names : c.names = (namesPut ws).filter c.containsPackage

/-- However a catalog is made by insertions and plans, it holds just what was inserted or added last
under each name and not removed since, in packages that come in the order in which their names did
first. Each package has its releases in ascending order, and answers whatever is asked of it
accordingly. -/
theorem tabulates_build (kind : CatalogKind) (edits : List Edit) :
    (build kind edits).Tabulates (edits.flatMap Edit.writes) ∧
      ∀ p ∈ (build kind edits).packages.toList, p.Answers := by
  refine ⟨?_, fun p _ => p.answers⟩
  rw [build_eq]
  generalize edits.flatMap Edit.writes = ws
  have hrelease (id : ReleaseId) : (ws.foldl write (empty kind)).release? id = left ws id := by
    rw [release?_foldl_write, left]
    cases lastWrite ws id <;> rfl
  have hleft (r : Release) :
      left ws r.id = some r ↔ r ∈ (ws.foldl write (empty kind)).releases := by
    rw [← hrelease, release?_eq_some_iff, and_iff_left rfl]
  constructor
  case release? => exact hrelease
  case holds =>
    intro p hp r
    rw [hleft, ← releasesOf_of_mem hp, mem_releasesOf_iff, and_comm]
  case package? =>
    intro name p
    simp only [← hrelease, ← containsPackage_iff_release?]
    constructor
    · intro h
      obtain ⟨hfind, _⟩ := Option.filter_eq_some_iff.mp h
      obtain ⟨hp, hname⟩ := Keyed.find?_eq_some_iff.mp hfind
      exact ⟨hp, hname, Option.isSome_iff_exists.mpr ⟨p, h⟩⟩
    · rintro ⟨hp, rfl, h⟩
      obtain ⟨q, hq⟩ := Option.isSome_iff_exists.mp h
      obtain ⟨hfind, _⟩ := Option.filter_eq_some_iff.mp hq
      obtain rfl := Keyed.eq_of_mem hp (Keyed.mem_of_find? hfind) (Keyed.key_of_find? hfind).symm
      exact hq
  case names =>
    rw [names_eq_filter_containsPackage, keys_foldl_write]
    simp [empty, Keyed.keys]

/-! ### What a plan does -/

/-- The last added release of a name is written last, what is removed before that. -/
lemma lastWrite_planWrites (plan : Plan) (id : ReleaseId) :
    lastWrite (planWrites plan) id =
      ((plan.added.reverse.find? fun r => r.id = id).map .put).or
        (if id ∈ plan.removed.map Release.id then some (.take id) else none) := by
  rw [planWrites, lastWrite_append, lastWrite_map fun _ => rfl, lastWrite_map fun _ => rfl]
  congr 1
  cases hfind : plan.removed.reverse.find? fun r => r.id = id with
  | some r =>
      have hid : r.id = id := by simpa using List.find?_some hfind
      have hr : r ∈ plan.removed := List.mem_reverse.mp (List.mem_of_find?_eq_some hfind)
      rw [if_pos (hid ▸ List.mem_map_of_mem hr), Option.map_some, hid]
  | none =>
      have hnot : ∀ r ∈ plan.removed, ¬ r.id = id := by simpa using List.find?_eq_none.mp hfind
      rw [if_neg (by simpa using hnot), Option.map_none]

lemma namesPut_planWrites (plan : Plan) :
    namesPut (planWrites plan) = (plan.added.map Release.name).eraseDups := by
  have hremoved : (plan.removed.map fun r => Write.take r.id).filterMap Write.content? = [] := by
    simp [Write.content?]
  have hadded : (plan.added.map Write.put).filterMap Write.content? = plan.added := by
    rw [List.filterMap_map]
    exact List.filterMap_some
  rw [namesPut, planWrites, List.filterMap_append, hremoved, hadded, List.nil_append]

/-- Under a name there is the release of it that is added last, or else the old one. -/
lemma release?_apply (c : Catalog) (plan : Plan) (id : ReleaseId) : (c.apply plan).release? id =
    (plan.added.reverse.find? fun r => r.id = id).or
      (if id ∈ plan.removed.map Release.id then none else c.release? id) := by
  rw [apply_eq, release?_foldl_write, lastWrite_planWrites]
  cases plan.added.reverse.find? fun r => r.id = id with
  | some r => rfl
  | none => by_cases h : id ∈ plan.removed.map Release.id <;> simp [h, Write.content?]

lemma containsRelease_apply_iff {c : Catalog} {plan : Plan} {id : ReleaseId} :
    (c.apply plan).containsRelease id = true ↔ id ∈ plan.added.map Release.id ∨
      (c.containsRelease id = true ∧ id ∉ plan.removed.map Release.id) := by
  rw [containsRelease, release?_apply, Option.isSome_or, Bool.or_eq_true, List.find?_isSome]
  refine or_congr (by simp) ?_
  by_cases h : id ∈ plan.removed.map Release.id <;> simp [h, containsRelease]

lemma keys_apply (c : Catalog) (plan : Plan) : (c.apply plan).packages.keys = c.packages.keys ++
    (plan.added.map Release.name).eraseDups.filter fun name => name ∉ c.packages.keys := by
  rw [apply_eq, keys_foldl_write, namesPut_planWrites]

/-- What is added is there in the end, so that all new packages are shown. -/
lemma names_apply (c : Catalog) (plan : Plan) :
    (c.apply plan).names = c.packages.keys.filter (c.apply plan).containsPackage ++
      (plan.added.map Release.name).eraseDups.filter fun name => name ∉ c.packages.keys := by
  rw [names_eq_filter_containsPackage, keys_apply, List.filter_append]
  congr 1
  rw [List.filter_eq_self]
  intro name hname
  obtain ⟨r, hr, rfl⟩ := List.mem_map.mp (List.mem_eraseDups.mp (List.mem_filter.mp hname).1)
  have hthere : (c.apply plan).containsRelease r.id = true :=
    containsRelease_apply_iff.mpr (.inl (List.mem_map_of_mem hr))
  exact containsPackage_iff_release?.mpr ⟨r.version, hthere⟩

/-- What a plan makes of a catalog. -/
structure CarriesOut (plan : Plan) (before after : Catalog) : Prop where
  kind : after.kind = before.kind
  /-- A release is there if it is added, or was there and is not removed. -/
  containsRelease : ∀ id, after.containsRelease id = true ↔ id ∈ plan.added.map Release.id ∨
    (before.containsRelease id = true ∧ id ∉ plan.removed.map Release.id)
  /-- Under a name there is the release of it that is added last, or else the old one. -/
  release? : ∀ id, after.release? id = (plan.added.reverse.find? fun r => r.id = id).or
    (if id ∈ plan.removed.map Release.id then none else before.release? id)
  /-- No package changes its place, not even one that is left without releases in between, and new
  ones come behind in the order in which they are added. -/
  keys : after.packages.keys = before.packages.keys ++
    (plan.added.map Release.name).eraseDups.filter fun name => name ∉ before.packages.keys
  /-- The packages of the old places are shown in the same order if they have a release, and all new
  ones are shown. -/
  names : after.names = before.packages.keys.filter after.containsPackage ++
    (plan.added.map Release.name).eraseDups.filter fun name => name ∉ before.packages.keys
  /-- Packages that were shown and still are come in the same order. -/
  order : (before.names.filter after.containsPackage).Sublist after.names

/-- Whatever a plan lists, carrying it out takes out what it removes and puts what it adds, the last
release of a name winning. No package changes its place by that, even if it is left without releases
in between. -/
theorem carriesOut_apply (c : Catalog) (plan : Plan) : CarriesOut plan c (c.apply plan) where
  kind := by rw [apply_eq, kind_foldl_write]
  containsRelease _ := containsRelease_apply_iff
  release? := release?_apply c plan
  keys := keys_apply c plan
  names := names_apply c plan
  order := by
    have hold : (c.names.filter (c.apply plan).containsPackage).Sublist
        (c.packages.keys.filter (c.apply plan).containsPackage) := by
      rw [names_eq_filter_containsPackage]
      exact List.filter_sublist.filter _
    rw [names_apply]
    exact hold.trans (List.sublist_append_left _ _)

/-- A package that is emptied and filled again keeps its place, even if each release is listed
twice. -/
example :
    let lib (n : UInt64) : Release := { name := "lib", version := ⟨n, 0, 0⟩ }
    let app : Release := { name := "app", version := ⟨1, 0, 0⟩ }
    let log : Release := { name := "log", version := ⟨1, 0, 0⟩ }
    let planned := (ofReleases .installed [lib 1, app]).apply
      { added := [log, lib 2, log, lib 2], removed := [lib 1, log, lib 1] }
    planned.names = ["lib", "app", "log"] ∧ planned.releases = [lib 2, app, log] := by
  decide +kernel

end Catalog

end PackagePlanner
